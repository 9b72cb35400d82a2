import Mathlib.Data.List.GetD
import Mathlib.Tactic.Common

/-!
# Nor.Cells

NOR flash, by itself: what the cells hold and what a program and an erase command do to them.

* a program command can only clear bits: the cell becomes the bitwise AND of old and new;
* an erase command sets every cell of its block to `0xFF`;
* `CutOf g ws c c'`: `c'` is what a power cut can leave of the commands `ws` issued from `c`. With
  `Grain.op` the cut falls between two commands, with `Grain.byte` it may also leave any prefix of
  the bytes of one program command.
-/

namespace Nor

abbrev Byte := BitVec 8

/-- The contents of every device: device number, address, byte. -/
abbrev Cells := Nat → Nat → Byte

/-- A blank byte. -/
abbrev blank : Byte := 0xFF#8

def readCells (c : Cells) (dev addr n : Nat) : List Byte :=
  (List.range n).map fun i => c dev (addr + i)

def programCells (c : Cells) (dev addr : Nat) (bs : List Byte) : Cells := fun d a =>
  if d = dev ∧ addr ≤ a ∧ a < addr + bs.length then c d a &&& bs.getD (a - addr) blank else c d a

def eraseCells (c : Cells) (dev addr n : Nat) : Cells := fun d a =>
  if d = dev ∧ addr ≤ a ∧ a < addr + n then blank else c d a

/-- One command that changes cells. -/
inductive Write where
  | program (dev addr : Nat) (bs : List Byte)
  | erase (dev addr n : Nat)
  deriving DecidableEq

namespace Write

def apply : Write → Cells → Cells
  | .program dev addr bs, c => programCells c dev addr bs
  | .erase dev addr n, c => eraseCells c dev addr n

/-- The cells a command may change. -/
def Touches : Write → Nat → Nat → Prop
  | .program dev addr bs, d, a => d = dev ∧ addr ≤ a ∧ a < addr + bs.length
  | .erase dev addr n, d, a => d = dev ∧ addr ≤ a ∧ a < addr + n

/-- What a cut in the middle of the command leaves: a prefix of a program command's bytes. -/
def Torn : Write → Cells → Cells → Prop
  | .program dev addr bs, c, c' => ∃ j, j ≤ bs.length ∧ c' = programCells c dev addr (bs.take j)
  | .erase _ _ _, c, c' => c' = c

theorem apply_of_not_touches {w : Write} {c : Cells} {d a : Nat} (h : ¬ w.Touches d a) :
    w.apply c d a = c d a := by
  cases w with
  | program dev addr bs => simp only [apply, programCells]; exact if_neg h
  | erase dev addr n => simp only [apply, eraseCells]; exact if_neg h

theorem torn_of_not_touches {w : Write} {c c' : Cells} {d a : Nat} (ht : w.Torn c c')
    (h : ¬ w.Touches d a) : c' d a = c d a := by
  cases w with
  | program dev addr bs =>
    obtain ⟨j, hj, rfl⟩ := ht
    refine if_neg fun hd => h ⟨hd.1, hd.2.1, ?_⟩
    have := hd.2.2
    rw [List.length_take] at this
    omega
  | erase dev addr n => rw [show c' = c from ht]

end Write

def applyAll (ws : List Write) (c : Cells) : Cells := ws.foldl (fun c w => w.apply c) c

@[simp] theorem applyAll_nil (c : Cells) : applyAll [] c = c := rfl

@[simp] theorem applyAll_cons (w : Write) (ws : List Write) (c : Cells) :
    applyAll (w :: ws) c = applyAll ws (w.apply c) := rfl

@[simp] theorem applyAll_append (ws vs : List Write) (c : Cells) :
    applyAll (ws ++ vs) c = applyAll vs (applyAll ws c) := by
  simp [applyAll, List.foldl_append]

/-! ## Power cuts -/

/-- Where a power cut may fall. -/
inductive Grain where
  | op
  | byte
  deriving DecidableEq

def CutOf (g : Grain) : List Write → Cells → Cells → Prop
  | [], c, c' => c' = c
  | w :: ws, c, c' => c' = c ∨ (g = .byte ∧ w.Torn c c') ∨ CutOf g ws (w.apply c) c'

theorem CutOf.start {g : Grain} (ws : List Write) (c : Cells) : CutOf g ws c c := by
  cases ws with
  | nil => rfl
  | cons w ws => exact .inl rfl

theorem CutOf.finish {g : Grain} (ws : List Write) (c : Cells) : CutOf g ws c (applyAll ws c) := by
  induction ws generalizing c with
  | nil => rfl
  | cons w ws ih => exact .inr (.inr (ih _))

theorem cutOf_append {g : Grain} {ws vs : List Write} {c c' : Cells} :
    CutOf g (ws ++ vs) c c' ↔ CutOf g ws c c' ∨ CutOf g vs (applyAll ws c) c' := by
  induction ws generalizing c with
  | nil =>
    refine ⟨.inr, fun h => ?_⟩
    rcases h with rfl | h
    · exact .start vs c'
    · exact h
  | cons w ws ih =>
    simp only [List.cons_append, CutOf, ih, applyAll_cons]
    tauto

/-- Every command of `ws` stays inside the region `R`. -/
def Confined (R : Nat → Nat → Prop) (ws : List Write) : Prop :=
  ∀ w ∈ ws, ∀ d a, w.Touches d a → R d a

theorem confined_nil (R : Nat → Nat → Prop) : Confined R [] := by
  intro w hw; cases hw

theorem confined_append {R : Nat → Nat → Prop} {ws vs : List Write} :
    Confined R (ws ++ vs) ↔ Confined R ws ∧ Confined R vs := by
  simp only [Confined, List.mem_append]
  exact ⟨fun h => ⟨fun w hw => h w (.inl hw), fun w hw => h w (.inr hw)⟩,
    fun h w hw => hw.elim (h.1 w) (h.2 w)⟩

theorem confined_cons {R : Nat → Nat → Prop} {w : Write} {ws : List Write} :
    Confined R (w :: ws) ↔ (∀ d a, w.Touches d a → R d a) ∧ Confined R ws := by
  simp [Confined]

theorem Confined.mono {R S : Nat → Nat → Prop} {ws : List Write} (h : Confined R ws)
    (hRS : ∀ d a, R d a → S d a) : Confined S ws :=
  fun w hw d a ht => hRS d a (h w hw d a ht)

/-- The frame rule: cells outside the region read the same at every cut. -/
theorem CutOf.frame {g : Grain} {R : Nat → Nat → Prop} {ws : List Write} {c c' : Cells}
    (h : CutOf g ws c c') (hR : Confined R ws) {d a : Nat} (ha : ¬ R d a) : c' d a = c d a := by
  induction ws generalizing c with
  | nil => rw [show c' = c from h]
  | cons w ws ih =>
    obtain ⟨hw, hws⟩ := confined_cons.mp hR
    have hna : ¬ w.Touches d a := fun ht => ha (hw d a ht)
    rcases h with rfl | ⟨-, ht⟩ | h
    · rfl
    · exact w.torn_of_not_touches ht hna
    · rw [ih h hws, w.apply_of_not_touches hna]

theorem applyAll_frame {R : Nat → Nat → Prop} {ws : List Write} {c : Cells}
    (hR : Confined R ws) {d a : Nat} (ha : ¬ R d a) : applyAll ws c d a = c d a :=
  (CutOf.finish (g := .op) ws c).frame hR ha

/-! ## Reading back -/

@[simp] theorem length_readCells (c : Cells) (dev addr n : Nat) :
    (readCells c dev addr n).length = n := by simp [readCells]

theorem readCells_congr {c c' : Cells} {dev addr n : Nat}
    (h : ∀ i, i < n → c dev (addr + i) = c' dev (addr + i)) :
    readCells c dev addr n = readCells c' dev addr n := by
  simp only [readCells]
  exact List.map_congr_left fun i hi => h i (List.mem_range.mp hi)

theorem readCells_getElem? (c : Cells) (dev addr n i : Nat) (hi : i < n) :
    (readCells c dev addr n)[i]? = some (c dev (addr + i)) := by
  simp [readCells, hi]

theorem readCells_succ (c : Cells) (dev addr n : Nat) :
    readCells c dev addr (n + 1) = c dev addr :: readCells c dev (addr + 1) n := by
  simp only [readCells, List.range_succ_eq_map, List.map_cons, Nat.add_zero, List.map_map]
  congr 1
  exact List.map_congr_left fun i _ => by simp [Nat.add_assoc, Nat.add_comm 1]

theorem readCells_append (c : Cells) (dev addr m n : Nat) :
    readCells c dev addr (m + n) = readCells c dev addr m ++ readCells c dev (addr + m) n := by
  simp only [readCells, List.range_add, List.map_append, List.map_map]
  congr 1
  exact List.map_congr_left fun i _ => by simp [Nat.add_assoc]

theorem readCells_eq_of_getElem {c : Cells} {dev addr : Nat} {bs : List Byte}
    (h : ∀ i, i < bs.length → c dev (addr + i) = bs.getD i blank) :
    readCells c dev addr bs.length = bs := by
  apply List.ext_getElem (by simp)
  intro i h1 h2
  have := h i h2
  simp only [readCells, List.getElem_map, List.getElem_range]
  rw [this, List.getD_eq_getElem?_getD, List.getElem?_eq_getElem h2, Option.getD_some]

/-- Cells of `[addr, addr + n)` are blank. -/
def Blank (c : Cells) (dev addr n : Nat) : Prop := ∀ a, addr ≤ a → a < addr + n → c dev a = blank

theorem readCells_blank {c : Cells} {dev addr n : Nat} (h : Blank c dev addr n) :
    readCells c dev addr n = List.replicate n blank := by
  apply List.ext_getElem (by simp)
  intro i h1 h2
  simp only [readCells, List.getElem_map, List.getElem_range, List.getElem_replicate]
  rw [length_readCells] at h1
  exact h _ (by omega) (by omega)

theorem Blank.mono {c : Cells} {dev addr n addr' n' : Nat} (h : Blank c dev addr n)
    (hl : addr ≤ addr') (hr : addr' + n' ≤ addr + n) : Blank c dev addr' n' :=
  fun a h1 h2 => h a (by omega) (by omega)

@[simp] theorem blank_and (b : Byte) : blank &&& b = b := BitVec.allOnes_and

theorem programCells_inside {c : Cells} {dev addr a : Nat} {bs : List Byte} (h1 : addr ≤ a)
    (h2 : a < addr + bs.length) :
    programCells c dev addr bs dev a = c dev a &&& bs.getD (a - addr) blank :=
  if_pos ⟨rfl, h1, h2⟩

theorem programCells_outside {c : Cells} {dev addr d a : Nat} {bs : List Byte}
    (h : d ≠ dev ∨ a < addr ∨ addr + bs.length ≤ a) : programCells c dev addr bs d a = c d a :=
  if_neg fun hd => by omega

theorem eraseCells_inside {c : Cells} {dev addr a n : Nat} (h1 : addr ≤ a) (h2 : a < addr + n) :
    eraseCells c dev addr n dev a = blank := if_pos ⟨rfl, h1, h2⟩

theorem eraseCells_outside {c : Cells} {dev addr d a n : Nat}
    (h : d ≠ dev ∨ a < addr ∨ addr + n ≤ a) : eraseCells c dev addr n d a = c d a :=
  if_neg fun hd => by omega

/-- What is programmed over blank cells reads back, and the rest stays blank. -/
theorem read_program_blank {c : Cells} {dev addr n : Nat} {bs : List Byte}
    (h : Blank c dev addr n) (hn : bs.length ≤ n) :
    readCells (programCells c dev addr bs) dev addr n =
      bs ++ List.replicate (n - bs.length) blank := by
  obtain ⟨k, rfl⟩ : ∃ k, n = bs.length + k := ⟨n - bs.length, by omega⟩
  rw [readCells_append, Nat.add_sub_cancel_left]
  congr 1
  · apply readCells_eq_of_getElem
    intro i hi
    rw [programCells_inside (by omega) (by omega), h _ (by omega) (by omega), blank_and,
      Nat.add_sub_cancel_left]
  · apply readCells_blank
    intro a h1 h2
    rw [programCells_outside (by omega)]
    exact h a (by omega) (by omega)

@[simp] theorem programCells_nil (c : Cells) (dev addr : Nat) : programCells c dev addr [] = c := by
  funext d a
  exact if_neg fun h => by simp at h; omega

/-- Two program commands in a row are one. -/
theorem programCells_append (c : Cells) (dev addr : Nat) (bs bs' : List Byte) :
    programCells (programCells c dev addr bs) dev (addr + bs.length) bs' =
      programCells c dev addr (bs ++ bs') := by
  funext d a
  by_cases hd : d = dev
  · subst hd
    by_cases h1 : addr ≤ a ∧ a < addr + bs.length
    · rw [programCells_outside (by omega), programCells_inside h1.1 h1.2,
        programCells_inside h1.1 (by simp; omega), List.getD_append _ _ _ _ (by omega)]
    · by_cases h2 : addr + bs.length ≤ a ∧ a < addr + bs.length + bs'.length
      · rw [programCells_inside h2.1 h2.2, programCells_outside (by omega),
          programCells_inside (by omega) (by simp; omega),
          List.getD_append_right _ _ _ _ (by omega), Nat.sub_add_eq]
      · rw [programCells_outside (by omega), programCells_outside (by omega),
          programCells_outside (by simp; omega)]
  · rw [programCells_outside (.inl hd), programCells_outside (.inl hd),
      programCells_outside (.inl hd)]

/-- Two erase commands in a row are one. -/
theorem eraseCells_append (c : Cells) (dev addr m n : Nat) :
    eraseCells (eraseCells c dev addr m) dev (addr + m) n = eraseCells c dev addr (m + n) := by
  funext d a
  by_cases h : d = dev ∧ addr ≤ a ∧ a < addr + (m + n)
  · obtain ⟨rfl, h1, h2⟩ := h
    rw [eraseCells_inside h1 h2]
    by_cases h3 : a < addr + m
    · rw [eraseCells_outside (by omega), eraseCells_inside h1 h3]
    · rw [eraseCells_inside (by omega) (by omega)]
  · rw [eraseCells_outside (by omega), eraseCells_outside (by omega), eraseCells_outside (by omega)]

@[simp] theorem eraseCells_zero (c : Cells) (dev addr : Nat) : eraseCells c dev addr 0 = c := by
  funext d a
  exact if_neg fun h => by omega

theorem blank_eraseCells (c : Cells) (dev addr n : Nat) : Blank (eraseCells c dev addr n) dev addr n :=
  fun _ h1 h2 => eraseCells_inside h1 h2

/-! ## Long commands -/

/-- `ws` programs `bs` from `addr` on, piece by piece. -/
inductive Pieces (dev : Nat) : Nat → List Byte → List Write → Prop where
  | nil (addr : Nat) : Pieces dev addr [] []
  | cons {addr : Nat} {bs rest : List Byte} {ws : List Write} :
    Pieces dev (addr + bs.length) rest ws →
    Pieces dev addr (bs ++ rest) (.program dev addr bs :: ws)

theorem Pieces.single (dev addr : Nat) (bs : List Byte) :
    Pieces dev addr bs [.program dev addr bs] := by
  have h : Pieces dev addr (bs ++ []) [.program dev addr bs] := .cons (.nil _)
  rwa [List.append_nil] at h

/-- The first `n` bytes, then the rest. -/
theorem Pieces.split {dev addr n : Nat} {bs : List Byte} {ws : List Write} (hn : n ≤ bs.length)
    (h : Pieces dev (addr + n) (bs.drop n) ws) :
    Pieces dev addr bs (.program dev addr (bs.take n) :: ws) := by
  have hlen : (bs.take n).length = n := by rw [List.length_take]; omega
  have h' : Pieces dev addr (bs.take n ++ bs.drop n) (.program dev addr (bs.take n) :: ws) :=
    .cons (by rwa [hlen])
  rwa [List.take_append_drop] at h'

theorem Pieces.append {dev addr : Nat} {bs bs' : List Byte} {ws ws' : List Write}
    (h : Pieces dev addr bs ws) (h' : Pieces dev (addr + bs.length) bs' ws') :
    Pieces dev addr (bs ++ bs') (ws ++ ws') := by
  induction h with
  | nil addr => exact h'
  | cons hrest ih =>
    rw [List.append_assoc]
    rw [List.length_append, ← Nat.add_assoc] at h'
    exact .cons (ih h')

theorem Pieces.applyAll {dev addr : Nat} {bs : List Byte} {ws : List Write}
    (h : Pieces dev addr bs ws) (c : Cells) : applyAll ws c = programCells c dev addr bs := by
  induction h generalizing c with
  | nil addr => simp
  | cons _ ih => rw [applyAll_cons, Write.apply, ih, programCells_append]

/-- A cut while a long command runs leaves a prefix of it. -/
theorem Pieces.cut {g : Grain} {dev addr : Nat} {bs : List Byte} {ws : List Write} {c c' : Cells}
    (h : Pieces dev addr bs ws) (hc : CutOf g ws c c') :
    ∃ j, j ≤ bs.length ∧ c' = programCells c dev addr (bs.take j) := by
  induction h generalizing c with
  | nil addr => exact ⟨0, Nat.le_refl _, by rw [show c' = c from hc]; simp⟩
  | @cons addr bs rest ws _ ih =>
    rcases hc with rfl | ⟨-, j, hj, rfl⟩ | hc
    · exact ⟨0, Nat.zero_le _, by simp⟩
    · exact ⟨j, by simp; omega, by rw [List.take_append_of_le_length hj]⟩
    · obtain ⟨j, hj, rfl⟩ := ih hc
      refine ⟨bs.length + j, by simp; omega, ?_⟩
      rw [Write.apply, programCells_append, List.take_length_add_append]

theorem Pieces.confined {dev addr : Nat} {bs : List Byte} {ws : List Write}
    (h : Pieces dev addr bs ws) :
    Confined (fun d a => d = dev ∧ addr ≤ a ∧ a < addr + bs.length) ws := by
  induction h with
  | nil addr => exact confined_nil _
  | cons _ ih =>
    refine confined_cons.mpr ⟨fun d a ht => ?_, ih.mono fun d a ha => ?_⟩
    · obtain ⟨h1, h2, h3⟩ := ht
      exact ⟨h1, h2, by simp; omega⟩
    · obtain ⟨h1, h2, h3⟩ := ha
      exact ⟨h1, by omega, by simp; omega⟩

/-- `n` erase commands in a row, over blocks of `blk` bytes. -/
def eraseBlocks (dev blk : Nat) : Nat → Nat → List Write
  | _, 0 => []
  | addr, n + 1 => .erase dev addr blk :: eraseBlocks dev blk (addr + blk) n

theorem applyAll_eraseBlocks (dev blk addr n : Nat) (c : Cells) :
    applyAll (eraseBlocks dev blk addr n) c = eraseCells c dev addr (blk * n) := by
  induction n generalizing addr c with
  | zero => simp [eraseBlocks]
  | succ n ih =>
    rw [eraseBlocks, applyAll_cons, ih, Write.apply, eraseCells_append, Nat.mul_succ, Nat.add_comm]

theorem confined_eraseBlocks (dev blk addr n : Nat) :
    Confined (fun d a => d = dev ∧ addr ≤ a ∧ a < addr + blk * n) (eraseBlocks dev blk addr n) := by
  induction n generalizing addr with
  | zero => exact confined_nil _
  | succ n ih =>
    refine confined_cons.mpr ⟨fun d a ht => ?_, (ih (addr + blk)).mono fun d a ha => ?_⟩
    · obtain ⟨h1, h2, h3⟩ := ht
      exact ⟨h1, h2, by rw [Nat.mul_succ]; omega⟩
    · obtain ⟨h1, h2, h3⟩ := ha
      exact ⟨h1, by omega, by rw [Nat.mul_succ]; omega⟩

/-- The commands only erase, in units of `k` bytes. -/
def OnlyErases (k : Nat) (ws : List Write) : Prop :=
  ∀ w ∈ ws, ∃ dev addr n, w = .erase dev addr n ∧ k ∣ addr ∧ k ∣ n

theorem onlyErases_eraseBlocks {k blk addr : Nat} (dev n : Nat) (hblk : k ∣ blk) (ha : k ∣ addr) :
    OnlyErases k (eraseBlocks dev blk addr n) := by
  induction n generalizing addr with
  | zero => intro w hw; cases hw
  | succ n ih =>
    intro w hw
    rcases List.mem_cons.mp hw with rfl | hw
    · exact ⟨_, _, _, rfl, ha, hblk⟩
    · exact ih (Nat.dvd_add ha hblk) w hw

/-- Between the bounds of a unit, `[addr, addr + n)` holds all addresses or none. -/
theorem unit_mem {k addr n a a' : Nat} (hk : 0 < k) (ha : k ∣ addr) (hn : k ∣ n)
    (h : a / k = a' / k) (hin : addr ≤ a ∧ a < addr + n) : addr ≤ a' ∧ a' < addr + n := by
  obtain ⟨x, rfl⟩ := ha
  obtain ⟨y, rfl⟩ := hn
  rw [← Nat.mul_add] at hin ⊢
  rw [Nat.mul_comm k x, Nat.mul_comm k (x + y), ← Nat.le_div_iff_mul_le hk,
    ← Nat.div_lt_iff_lt_mul hk] at hin ⊢
  rwa [← h]

/-- A cut while blocks are erased leaves every unit as it was or blank. -/
theorem OnlyErases.cut {g : Grain} {k : Nat} {ws : List Write} {c c' : Cells}
    (h : OnlyErases k ws) (hk : 0 < k) (hc : CutOf g ws c c') (d p : Nat) :
    (∀ a, a / k = p → c' d a = c d a) ∨ ∀ a, a / k = p → c' d a = blank := by
  induction ws generalizing c with
  | nil => exact .inl fun a _ => by rw [show c' = c from hc]
  | cons w ws ih =>
    obtain ⟨dev, addr, n, rfl, haddr, hn⟩ := h w (List.mem_cons_self ..)
    rcases hc with rfl | ⟨-, ht⟩ | hc
    · exact .inl fun a _ => rfl
    · exact .inl fun a _ => by rw [show c' = c from ht]
    · rcases ih (fun w hw => h w (List.mem_cons_of_mem _ hw)) hc with hcell | hcell
      · by_cases hin : d = dev ∧ ∃ a, a / k = p ∧ addr ≤ a ∧ a < addr + n
        · obtain ⟨rfl, a, hap, hin⟩ := hin
          refine .inr fun a' ha' => ?_
          obtain ⟨h1, h2⟩ := unit_mem hk haddr hn (hap.trans ha'.symm) hin
          rw [hcell a' ha', Write.apply, eraseCells_inside h1 h2]
        · refine .inl fun a ha => ?_
          rw [hcell a ha, Write.apply]
          exact if_neg fun hd => hin ⟨hd.1, a, ha, hd.2⟩
      · exact .inr hcell

end Nor

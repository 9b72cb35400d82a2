import XR806.AtCmd.Config

/-!
# XR806.AtCmd.Positions

`at_get_parameters` on lists whose descriptors admit both ends: which texts it takes and what it
stores for them, against the textual forms of the values.

The getter of hexadecimal data skips the end twice, so that the next parameter loses its first
character, and the other getters take more than the forms: quotes, a colon behind a decimal
integer, integers that are too large. Apart from these, and from the signs, prefixes and colons of
what is printed, which no getter takes, the parameters go by position (`by_position_iff`).
-/

namespace XR806
namespace AtCmd
namespace Positions

open Config

/-! ## The textual forms of values -/

def decOf (digits : List UInt8) : Nat := digits.foldl (fun n ch => n * 10 + (ch - 0x30).toNat) 0

def hexOf (digits : List UInt8) : Nat := digits.foldl (fun n ch => n * 16 + (hexToNum ch).toNat) 0

/-- At most ten digits. -/
def Digits (digit : UInt8 → Bool) (text : List UInt8) : Prop :=
  text ≠ [] ∧ text.length ≤ 10 ∧ ∀ b ∈ text, digit b = true

/-- A number of one to three digits that fits a byte. -/
def IsByte (text : List UInt8) (num : UInt8) : Prop :=
  text ≠ [] ∧ text.length ≤ 3 ∧ (∀ b ∈ text, isDec b = true) ∧ decOf text = num.toNat

/-- `text` is a form of the value that is `image` in memory: a text without separators, quotes and
line ends, pairs of digits, digits, or four numbers. Data that is shorter than its field is followed
by zeros. -/
def Plain (d : Descriptor) (text image : List UInt8) : Prop :=
  match d.pt with
  | .text =>
    image = text ++ [0] ∧ text ≠ [] ∧ text.length < sizeLimit d.option ∧
      ∀ b ∈ text, isEnd b = false ∧ b ≠ atQuo
  | .hex =>
    image = hexBytes text ++ List.replicate (sizeLimit d.option - text.length / 2) 0 ∧
      text ≠ [] ∧ text.length % 2 = 0 ∧ text.length / 2 ≤ sizeLimit d.option ∧
        ∀ b ∈ text, isHex b = true
  | .di => image = u32Bytes (decOf text) ∧ Digits isDec text ∧ decOf text < 2147483648
  | .hi => image = u32Bytes (hexOf text) ∧ Digits isHex text ∧ hexOf text < 4294967296
  | .ip => image.length = 4 ∧ ∃ texts, text = [atDot].intercalate texts ∧
      List.Forall₂ IsByte texts image

/-- What `at_get_value` prints and is not of that kind: a negative integer with its sign, a hexadecimal
integer with its prefix, and data of more than one byte with its colons. -/
def Printed (d : Descriptor) (text image : List UInt8) : Prop :=
  match d.pt with
  | .hex => ∃ pair pairs, text = pair ++ pairs.flatMap (atColon :: ·) ∧
      image = hexBytes (pair ++ pairs.flatten) ++
        List.replicate (sizeLimit d.option - (pairs.length + 1)) 0 ∧
      pairs ≠ [] ∧ pairs.length + 1 ≤ sizeLimit d.option ∧
        ∀ p ∈ pair :: pairs, p.length = 2 ∧ ∀ b ∈ p, isHex b = true
  | .di => ∃ digits, text = 0x2d :: digits ∧ image = u32Bytes (4294967296 - decOf digits) ∧
      Digits isDec digits ∧ decOf digits ≤ 2147483648
  | .hi => ∃ x digits, text = 0x30 :: x :: digits ∧ (x = 0x78 ∨ x = 0x58) ∧
      image = u32Bytes (hexOf digits) ∧ Digits isHex digits ∧ hexOf digits < 4294967296
  | _ => False

def Form (d : Descriptor) (text image : List UInt8) : Prop :=
  Plain d text image ∨ Printed d text image

/-- The line begins with a list of values: the forms of one or more values of the first
descriptors, joined by separators and followed by a line end. -/
inductive Listed : List Descriptor → List UInt8 → List (List UInt8) → List UInt8 → Prop
  | last {d : Descriptor} {list : List Descriptor} {text image : List UInt8} {b : UInt8}
      {rest : List UInt8} : Form d text image → isEnd b = true → b ≠ atSeparator →
      Listed (d :: list) (text ++ b :: rest) [image] (stopAt b rest).para
  | cons {d : Descriptor} {list : List Descriptor} {text image : List UInt8}
      {para rest : List UInt8} {images : List (List UInt8)} : Form d text image →
      Listed list para images rest →
      Listed (d :: list) (text ++ atSeparator :: para) (image :: images) rest

/-! ## What is stored where -/

/-- The destinations after the getters have stored the values. -/
def store : List Descriptor → List (List UInt8) → List (List UInt8) → List (List UInt8)
  | d :: list, v :: values, dest :: dests => overlay dest (written d v) :: store list values dests
  | _, _, dests => dests

/-- The destinations with the images of the first values in them. -/
def holding : List (List UInt8) → List (List UInt8) → List (List UInt8)
  | image :: images, dest :: dests => overlay dest image :: holding images dests
  | _, dests => dests

/-- A store is in `strbuf` or in its destination. -/
def Kept : Access → Prop
  | .read _ => True
  | .strbuf i => i < atParaMaxSize
  | .pvar size n => n ≤ size

/-- A line that begins with a list of values has them stored in their places, and what is accepted
has been such a list up to the pointer. -/
structure ByPosition (list : List Descriptor) (para : List UInt8) : Prop where
  stores : ∀ images rest, Listed list para images rest →
    (atGetParameters list para).error = false ∧
      (atGetParameters list para).values.length = images.length ∧
        (∀ dests, store list (atGetParameters list para).values dests = holding images dests) ∧
          ∀ a ∈ (atGetParameters list para).log, Kept a
  consumes : (atGetParameters list para).error = false →
    ∃ images, Listed list para images (atGetParameters list para).para

/-! ## What is taken -/

/-- What the getters take one after the other. -/
inductive Taken : List Descriptor → List UInt8 → List (List UInt8) → List UInt8 → Prop
  | nil {para : List UInt8} : Taken [] para [] para
  | last {d : Descriptor} {list : List Descriptor} {para v rest : List UInt8} :
      Field d para v rest true → Taken (d :: list) para [v] rest
  | cons {d : Descriptor} {list : List Descriptor} {para v para' rest : List UInt8}
      {values : List (List UInt8)} : Field d para v para' false → Taken list para' values rest →
      Taken (d :: list) para (v :: values) rest

theorem paraLoop_taken {list : List Descriptor} : ∀ para : List UInt8,
    (paraLoop list para).error = false →
      Taken list para (paraLoop list para).values (paraLoop list para).para := by
  induction list with
  | nil => exact fun para _ => .nil
  | cons d list ih =>
    intro para herr
    unfold paraLoop at herr ⊢
    dsimp only at herr ⊢
    split_ifs at herr ⊢ with hg ho
    · have hfield := getPara_is_iff.mp (is_of_ok (Bool.eq_false_iff.mpr hg))
      rw [ho] at hfield
      exact .last hfield
    · have hfield := getPara_is_iff.mp (is_of_ok (Bool.eq_false_iff.mpr hg))
      rw [Bool.eq_false_iff.mpr ho] at hfield
      exact .cons hfield (ih _ herr)

theorem paraLoop_of_taken {list : List Descriptor} {para rest : List UInt8}
    {values : List (List UInt8)} (h : Taken list para values rest) :
    (paraLoop list para).error = false ∧ (paraLoop list para).values = values ∧
      (paraLoop list para).para = rest := by
  induction h with
  | nil => exact ⟨rfl, rfl, rfl⟩
  | last hfield =>
    obtain ⟨herr, hval, hpara, ho⟩ := getPara_is_iff.mpr hfield
    rw [paraLoop]
    dsimp only
    rw [herr, ho, if_neg Bool.false_ne_true, if_pos rfl]
    exact ⟨rfl, by rw [hval], hpara⟩
  | cons hfield _ ih =>
    obtain ⟨herr, hval, hpara, ho⟩ := getPara_is_iff.mpr hfield
    rw [paraLoop]
    dsimp only
    rw [herr, ho, if_neg Bool.false_ne_true, if_neg Bool.false_ne_true, hpara, hval]
    exact ⟨ih.1, by rw [ih.2.1], ih.2.2⟩

/-! ## Forms and what is taken -/

section
variable {d : Descriptor} {text image image' v v' : List UInt8}

theorem not_stops_of_isHex {b : UInt8} (h : isHex b = true) (pt : ParaType) :
    stops pt b = false ∧ b ≠ atQuo := by
  obtain ⟨he, hc, hq⟩ := not_isEnd_of_isHex h
  exact ⟨by simp [stops, he, hc], hq⟩

theorem isHex_of_isDec {b : UInt8} (h : isDec b = true) : isHex b = true := by
  simp only [isDec, Bool.and_eq_true, decide_eq_true_eq] at h
  simp [isHex, h]

theorem not_stops_of_isDec {b : UInt8} (h : isDec b = true) (pt : ParaType) :
    stops pt b = false ∧ b ≠ atQuo :=
  not_stops_of_isHex (isHex_of_isDec h) pt

theorem isByte_of_intercalate {texts : List (List UInt8)} (h : List.Forall₂ IsByte texts image)
    {b : UInt8} (hb : b ∈ [atDot].intercalate texts) : b = atDot ∨ isDec b = true := by
  rcases mem_intercalate hb with hd | ⟨t, ht, hbt⟩
  · exact .inl hd
  · refine .inr ?_
    clear hb
    induction h with
    | nil => cases ht
    | cons hbyte _ ih =>
      rcases List.mem_cons.mp ht with rfl | ht
      · exact hbyte.2.2.1 b hbt
      · exact ih ht

/-- A form has neither quotes nor what its getter stops at. -/
theorem Plain.not_stops (h : Plain d text image) : ∀ b ∈ text, stops d.pt b = false ∧ b ≠ atQuo := by
  obtain ⟨pt, size, option⟩ := d
  intro b hb
  cases pt with
  | text =>
    obtain ⟨-, -, -, hall⟩ := h
    exact ⟨by simp [stops, (hall b hb).1], (hall b hb).2⟩
  | hex =>
    obtain ⟨-, -, -, -, hall⟩ := h
    exact not_stops_of_isHex (hall b hb) _
  | di =>
    obtain ⟨-, ⟨-, -, hall⟩, -⟩ := h
    exact not_stops_of_isDec (hall b hb) _
  | hi =>
    obtain ⟨-, ⟨-, -, hall⟩, -⟩ := h
    exact not_stops_of_isHex (hall b hb) _
  | ip =>
    obtain ⟨-, texts, rfl, hall⟩ := h
    rcases isByte_of_intercalate hall hb with rfl | hd
    · exact ⟨rfl, by decide⟩
    · exact not_stops_of_isDec hd _

theorem Printed.not_stops (h : Printed d text image) (hpt : d.pt ≠ .hex) :
    ∀ b ∈ text, stops d.pt b = false ∧ b ≠ atQuo := by
  obtain ⟨pt, size, option⟩ := d
  intro b hb
  cases pt with
  | text => exact h.elim
  | hex => exact absurd rfl hpt
  | di =>
    obtain ⟨digits, rfl, -, ⟨-, -, hall⟩, -⟩ := h
    rcases List.mem_cons.mp hb with rfl | hb
    · exact ⟨rfl, by decide⟩
    · exact not_stops_of_isDec (hall b hb) _
  | hi =>
    obtain ⟨x, digits, rfl, hx, -, ⟨-, -, hall⟩, -⟩ := h
    rcases List.mem_cons.mp hb with rfl | hb
    · exact ⟨rfl, by decide⟩
    rcases List.mem_cons.mp hb with rfl | hb
    · rcases hx with rfl | rfl
      · exact ⟨rfl, by decide⟩
      · exact ⟨rfl, by decide⟩
    · exact not_stops_of_isHex (hall b hb) _
  | ip => exact h.elim

/-- Two digits and a colon, and behind it no end either. -/
def Colons (text : List UInt8) : Prop :=
  ∃ a b more, text = [a, b] ++ atColon :: more ∧ isHex a = true ∧ isHex b = true ∧
    ∀ x ∈ more, isEnd x = false ∧ x ≠ atQuo

theorem Printed.colons (h : Printed d text image) (hpt : d.pt = .hex) : Colons text := by
  obtain ⟨pt, size, option⟩ := d
  obtain rfl : pt = .hex := hpt
  obtain ⟨pair, pairs, rfl, -, hne, -, hall⟩ := h
  obtain ⟨hlen, hpair⟩ := hall pair List.mem_cons_self
  obtain ⟨a, b, rfl⟩ := List.length_eq_two.mp hlen
  obtain ⟨p, pairs, rfl⟩ := List.exists_cons_of_ne_nil hne
  refine ⟨a, b, p ++ pairs.flatMap (atColon :: ·), rfl, hpair a (by simp), hpair b (by simp), ?_⟩
  have hdigits : ∀ q ∈ p :: pairs, ∀ x ∈ q, isEnd x = false ∧ x ≠ atQuo := by
    intro q hq x hx
    obtain ⟨hend, -, hquo⟩ := not_isEnd_of_isHex ((hall q (List.mem_cons_of_mem _ hq)).2 x hx)
    exact ⟨hend, hquo⟩
  intro x hx
  rcases List.mem_append.mp hx with hx | hx
  · exact hdigits p List.mem_cons_self x hx
  · obtain ⟨q, hq, hx⟩ := List.mem_flatMap.mp hx
    rcases List.mem_cons.mp hx with rfl | hx
    · exact ⟨isEnd_colon, by decide⟩
    · exact hdigits q (List.mem_cons_of_mem _ hq) x hx

/-- A form has nothing that its getter stops at, or is data with colons. -/
theorem Form.cases (h : Form d text image) :
    (∀ b ∈ text, stops d.pt b = false ∧ b ≠ atQuo) ∨ d.pt = .hex ∧ Colons text := by
  rcases h with h | h
  · exact .inl h.not_stops
  · by_cases hpt : d.pt = .hex
    · exact .inr ⟨hpt, h.colons hpt⟩
    · exact .inl (h.not_stops hpt)

theorem isEnd_of_stops {pt : ParaType} {b : UInt8} (h : stops pt b = false) : isEnd b = false := by
  simp only [stops, Bool.or_eq_false_iff] at h
  exact h.1

theorem Form.not_isEnd (h : Form d text image) : ∀ b ∈ text, isEnd b = false ∧ b ≠ atQuo := by
  rcases h.cases with hstops | ⟨-, a, b, more, rfl, ha, hb, hmore⟩
  · exact fun x hx => ⟨isEnd_of_stops (hstops x hx).1, (hstops x hx).2⟩
  · obtain ⟨haEnd, -, haQuo⟩ := not_isEnd_of_isHex ha
    obtain ⟨hbEnd, -, hbQuo⟩ := not_isEnd_of_isHex hb
    have hcolon : isEnd atColon = false ∧ atColon ≠ atQuo := ⟨isEnd_colon, by decide⟩
    simp only [List.cons_append, List.nil_append, List.forall_mem_cons]
    exact ⟨⟨haEnd, haQuo⟩, ⟨hbEnd, hbQuo⟩, hcolon, hmore⟩

theorem stops_of_isEnd (pt : ParaType) {b : UInt8} (h : isEnd b = true) : stops pt b = true := by
  simp [stops, h]

theorem Plain.unquoted (h : Plain d text image) : unquoted text = text :=
  unquoted_of_ne fun b hb => (h.not_stops b hb).2

theorem isNum_of_isByte {num : UInt8} (h : IsByte text num) : IsNum text num := by
  obtain ⟨hne, hlen, hdec, hval⟩ := h
  have hlt : num.toNat < 256 := num.toNat_lt
  have hatoi : atAtoi text = num.toNat := by
    change min (decOf text) _ = _
    omega
  have hpos := List.length_pos_iff.mpr hne
  refine ⟨hdec, ?_⟩
  rw [ipNum, hatoi, if_pos ⟨hpos, hlen, by omega⟩, UInt8.ofNat_toNat]

theorem isByte_of_isNum {num : UInt8} (h : IsNum text num) : IsByte text num := by
  obtain ⟨hdec, hnum⟩ := h
  unfold ipNum at hnum
  split_ifs at hnum with hc
  obtain ⟨hpos, hlen, hle⟩ := hc
  have hatoi : atAtoi text = min (decOf text) 2147483647 := rfl
  refine ⟨List.length_pos_iff.mp hpos, hlen, hdec, ?_⟩
  cases hnum
  rw [UInt8.toNat_ofNat']
  omega

/-- A form without sign and prefix is taken as its value. -/
theorem Plain.takes (h : Plain d text image) : ∃ v, Takes d text v ∧ written d v = image := by
  have hquo := h.unquoted
  obtain ⟨pt, size, option⟩ := d
  cases pt with
  | text =>
    obtain ⟨rfl, hne, hlen, -⟩ := h
    exact ⟨text, ⟨hquo.symm, hne, hlen⟩, rfl⟩
  | hex =>
    obtain ⟨rfl, hne, heven, hlen, hall⟩ := h
    rw [← length_hexBytes] at hlen ⊢
    exact ⟨hexBytes text, ⟨by rwa [hquo], by rwa [hquo], by rwa [hquo], by rw [hquo], hlen⟩, rfl⟩
  | di =>
    obtain ⟨rfl, ⟨hne, hlen, hall⟩, hlt⟩ := h
    have hatoi : atAtoi text = decOf text := by
      change min (decOf text) _ = _
      omega
    refine ⟨text, ⟨rfl, hne, Nat.lt_succ_of_le hlen, hall⟩, ?_⟩
    change u32Bytes (atAtoi text) = _
    rw [hatoi]
  | hi =>
    obtain ⟨rfl, ⟨hne, hlen, hall⟩, hlt⟩ := h
    have hscan : sscanfX text = hexOf text := by
      change min (hexOf text) _ = _
      omega
    refine ⟨text, ⟨hquo.symm, hne, Nat.lt_succ_of_le hlen, hall⟩, ?_⟩
    change u32Bytes (sscanfX text) = _
    rw [hscan]
  | ip =>
    obtain ⟨hlen, texts, rfl, hall⟩ := h
    exact ⟨image, ⟨hlen, texts, hquo, hall.imp fun _ _ => isNum_of_isByte⟩, rfl⟩

theorem Colons.not_hex (h : Colons text) : ¬∀ b ∈ AtCmd.unquoted text, isHex b = true := by
  obtain ⟨a, b, more, rfl, -⟩ := h
  intro hall
  have hmem : atColon ∈ AtCmd.unquoted ([a, b] ++ atColon :: more) :=
    List.mem_filter.mpr ⟨by simp, by decide⟩
  exact absurd (hall _ hmem) (by decide)

/-- A sign, a prefix or a colon is taken by no getter. -/
theorem Printed.not_takes (h : Printed d text image) : ¬Takes d text v := by
  obtain ⟨pt, size, option⟩ := d
  cases pt with
  | text => exact h.elim
  | hex => exact fun ht => (h.colons rfl).not_hex ht.1
  | di =>
    obtain ⟨digits, rfl, -⟩ := h
    rintro ⟨rfl, -, -, hall⟩
    exact absurd (hall _ List.mem_cons_self) (by decide)
  | hi =>
    obtain ⟨x, digits, rfl, hx, -⟩ := h
    rintro ⟨rfl, -, -, hall⟩
    have hq : x ≠ atQuo ∧ isHex x = false := by
      rcases hx with rfl | rfl
      · decide
      · decide
    have hmem : x ∈ AtCmd.unquoted (0x30 :: x :: digits) :=
      List.mem_filter.mpr ⟨by simp, by simpa using hq.1⟩
    exact absurd (hall x hmem) (by simp [hq.2])
  | ip => exact h.elim

/-- The text before an end is one field, which has one value. -/
theorem takes_unique (hboth : BothEnds d.option) (hstops : ∀ b ∈ text, stops d.pt b = false)
    (h : Takes d text v) (h' : Takes d text v') : v = v' := by
  have hfield : ∀ w, Takes d text w → (getPara d (text ++ [atCr])).value = w := fun w hw => by
    have he : (leaves d.pt atCr []).endType &&& d.option ≠ 0 := by
      have hline : (leaves d.pt atCr []).endType = aetLine := by
        unfold leaves
        split_ifs
        · rfl
        · rfl
      rw [hline]
      exact hboth.2
    exact (getPara_is_iff.mpr ⟨text, atCr, [], rfl, hstops, stops_of_isEnd d.pt rfl, he, hw, rfl,
      rfl⟩).2.1
  rw [← hfield v h, hfield v' h']

theorem Plain.image_eq (hboth : BothEnds d.option) (h : Plain d text image)
    (ht : Takes d text v) : written d v = image := by
  obtain ⟨w, hw, himage⟩ := h.takes
  rw [takes_unique hboth (fun b hb => (h.not_stops b hb).1) ht hw, himage]

/-- A form that is taken has neither sign nor prefix nor colon. -/
theorem Form.plain (h : Form d text image) (ht : Takes d text v) : Plain d text image :=
  h.resolve_right fun hp => hp.not_takes ht

/-- The digits of data with colons, and how many pairs there are. -/
theorem colons_digits {pair : List UInt8} {pairs : List (List UInt8)}
    (hall : ∀ p ∈ pair :: pairs, p.length = 2 ∧ ∀ b ∈ p, isHex b = true) :
    (pair ++ pairs.flatMap (atColon :: ·)).filter (· ≠ atColon) = pair ++ pairs.flatten ∧
      (pair ++ pairs.flatten).length = 2 * (pairs.length + 1) := by
  have hkeep : ∀ p ∈ pair :: pairs, p.filter (· ≠ atColon) = p := by
    intro p hp
    refine List.filter_eq_self.mpr fun b hb => ?_
    simpa using (not_isEnd_of_isHex ((hall p hp).2 b hb)).2.1
  induction pairs generalizing pair with
  | nil =>
    have hlen := (hall pair List.mem_cons_self).1
    simpa using ⟨by simpa using hkeep pair List.mem_cons_self, hlen⟩
  | cons p pairs ih =>
    have hlen := (hall pair List.mem_cons_self).1
    obtain ⟨hdigits, hcount⟩ := ih (fun q hq => hall q (List.mem_cons_of_mem _ hq))
      fun q hq => hkeep q (List.mem_cons_of_mem _ hq)
    refine ⟨?_, ?_⟩
    · rw [List.filter_append, hkeep pair List.mem_cons_self, List.flatMap_cons, List.cons_append,
        List.filter_cons_of_neg (by simp), hdigits, List.flatten_cons]
    · rw [List.flatten_cons, List.length_append, hlen, hcount, List.length_cons]
      omega

theorem Printed.unique (h : Printed d text image) (h' : Printed d text image') : image = image' := by
  obtain ⟨pt, size, option⟩ := d
  cases pt with
  | text => exact h.elim
  | hex =>
    obtain ⟨pair, pairs, htext, rfl, -, -, hall⟩ := h
    obtain ⟨pair', pairs', htext', rfl, -, -, hall'⟩ := h'
    obtain ⟨hdigits, hcount⟩ := colons_digits hall
    obtain ⟨hdigits', hcount'⟩ := colons_digits hall'
    have hsame : pair ++ pairs.flatten = pair' ++ pairs'.flatten := by
      rw [← hdigits, ← hdigits', ← htext, htext']
    have hlen : pairs.length + 1 = pairs'.length + 1 := by
      have hcongr := congrArg List.length hsame
      omega
    rw [hsame, hlen]
  | di =>
    obtain ⟨digits, rfl, rfl, -⟩ := h
    obtain ⟨digits', heq, rfl, -⟩ := h'
    obtain ⟨-, rfl⟩ := List.cons_eq_cons.mp heq
    rfl
  | hi =>
    obtain ⟨x, digits, rfl, -, rfl, -⟩ := h
    obtain ⟨x', digits', heq, -, rfl, -⟩ := h'
    obtain ⟨-, heq⟩ := List.cons_eq_cons.mp heq
    obtain ⟨-, rfl⟩ := List.cons_eq_cons.mp heq
    rfl
  | ip => exact h.elim

theorem form_unique (hboth : BothEnds d.option) (h : Form d text image) (h' : Form d text image') :
    image = image' := by
  rcases h with h | h
  · obtain ⟨w, hw, himage⟩ := h.takes
    have hplain : Plain d text image' := h'.resolve_right fun hp => hp.not_takes hw
    rw [← himage, hplain.image_eq hboth hw]
  · have hprinted : Printed d text image' := h'.resolve_left fun hp => by
      obtain ⟨w, hw, -⟩ := hp.takes
      exact h.not_takes hw
    exact h.unique hprinted

theorem Form.ne_nil (h : Form d text image) : text ≠ [] := by
  obtain ⟨pt, size, option⟩ := d
  rcases h with h | h
  · cases pt with
    | text => exact h.2.1
    | hex => exact h.2.1
    | di => exact h.2.1.1
    | hi => exact h.2.1.1
    | ip =>
      obtain ⟨hlen, texts, rfl, hall⟩ := h
      cases hall with
      | nil => exact absurd hlen (by decide)
      | @cons t n ts ns hbyte hrest =>
        intro hnil
        cases ts with
        | nil => exact hbyte.1 (by simpa using hnil)
        | cons t' ts =>
          rw [intercalate_cons (List.cons_ne_nil _ _)] at hnil
          exact List.cons_ne_nil _ _ (List.append_eq_nil_iff.mp hnil).2
  · cases pt with
    | text => exact h.elim
    | hex =>
      obtain ⟨a, b, more, rfl, -⟩ := h.colons rfl
      exact List.cons_ne_nil _ _
    | di =>
      obtain ⟨digits, rfl, -⟩ := h
      exact List.cons_ne_nil _ _
    | hi =>
      obtain ⟨x, digits, rfl, -⟩ := h
      exact List.cons_ne_nil _ _
    | ip => exact h.elim

theorem foldl_mono {g : UInt8 → Nat} (k : Nat) (l : List UInt8) : ∀ {m n : Nat}, m ≤ n →
    l.foldl (fun n ch => n * k + g ch) m ≤ l.foldl (fun n ch => n * k + g ch) n := by
  induction l with
  | nil => exact fun h => h
  | cons b l ih => exact fun h => ih (Nat.add_le_add_right (Nat.mul_le_mul_right k h) _)

theorem decOf_le_cons (b : UInt8) (l : List UInt8) : decOf l ≤ decOf (b :: l) :=
  foldl_mono 10 l (Nat.zero_le _)

theorem hexOf_le_cons (b : UInt8) (l : List UInt8) : hexOf l ≤ hexOf (b :: l) :=
  foldl_mono 16 l (Nat.zero_le _)

/-- A value that keeps its value without the first byte of its form: what is left is a form too. -/
theorem Form.shift {c : UInt8} (h : Form d (c :: text) image) (ht : Takes d text v)
    (hw : written d v = image) : Plain d text image ∧ d.pt ≠ .hex := by
  have hquo : AtCmd.unquoted text = text :=
    unquoted_of_ne fun b hb => (h.not_isEnd b (List.mem_cons_of_mem c hb)).2
  obtain ⟨pt, size, option⟩ := d
  cases pt with
  | text =>
    obtain ⟨rfl, -⟩ := h.resolve_right fun hp => hp.elim
    obtain ⟨rfl, -⟩ := ht
    have hlen := congrArg List.length hw
    rw [hquo] at hlen
    simp [written] at hlen
  | hex =>
    obtain ⟨hhex, heven', -⟩ := ht
    have hcolon : ¬Printed ⟨.hex, size, option⟩ (c :: text) image := by
      intro hp
      obtain ⟨a, b, more, heq, -⟩ := hp.colons rfl
      obtain ⟨rfl, rfl⟩ := List.cons_eq_cons.mp heq
      rw [hquo] at hhex
      exact absurd (hhex atColon (by simp)) (by decide)
    obtain ⟨-, -, heven, -⟩ := h.resolve_right hcolon
    rw [hquo] at heven'
    rw [List.length_cons] at heven
    omega
  | di =>
    obtain ⟨rfl, hne, hlen, hall⟩ := ht
    refine ⟨?_, ParaType.noConfusion⟩
    have hsmall : decOf v < 2147483648 := by
      rcases h with ⟨-, -, hlt⟩ | ⟨digits, heq, himage, -, hle⟩
      · exact Nat.lt_of_le_of_lt (decOf_le_cons c v) hlt
      · -- the largest integer is no negative one
        obtain ⟨-, rfl⟩ := List.cons_eq_cons.mp heq
        have hval : u32Of (u32Bytes (min (decOf v) 2147483647)) =
            u32Of (u32Bytes (4294967296 - decOf v)) := congrArg u32Of (hw.trans himage)
        by_contra hge
        rw [u32Of_u32Bytes (by omega), u32Of_u32Bytes (by omega)] at hval
        omega
    refine ⟨?_, ⟨hne, Nat.le_of_lt_succ hlen, hall⟩, hsmall⟩
    rw [← hw]
    change u32Bytes (min (decOf v) _) = _
    congr 1
    omega
  | hi =>
    obtain ⟨rfl, hne, hlen, hall⟩ := ht
    refine ⟨?_, ParaType.noConfusion⟩
    rw [hquo] at hne hlen hall
    rcases h with ⟨-, -, hlt⟩ | ⟨x, digits, heq, hx, -⟩
    · have hle := hexOf_le_cons c text
      refine ⟨?_, ⟨hne, Nat.le_of_lt_succ hlen, hall⟩, by omega⟩
      rw [← hw, hquo]
      change u32Bytes (min (hexOf text) _) = _
      congr 1
      omega
    · obtain ⟨-, rfl⟩ := List.cons_eq_cons.mp heq
      have hbad := hall x List.mem_cons_self
      rcases hx with rfl | rfl
      · exact absurd hbad (by decide)
      · exact absurd hbad (by decide)
  | ip =>
    obtain ⟨hlen, texts, htext, hall⟩ := ht
    refine ⟨?_, ParaType.noConfusion⟩
    rw [hquo] at htext
    have hv : v = image := hw
    rw [hv] at hlen hall
    exact ⟨hlen, texts, htext, hall.imp fun _ _ => isByte_of_isNum⟩

end

/-! ## The stores of a getter -/

def Below (n : Nat) : Access → Prop
  | .read _ => True
  | .strbuf i => i < n
  | .pvar _ _ => False

/-- A loop stores only below what it leaves in `strbuf`. -/
structure Grows (out : List UInt8) (s : Scan) : Prop where
  le : out.length ≤ s.out.length
  below : ∀ a ∈ s.log, Below s.out.length a

section
variable {limit : Nat} {b x : UInt8} {para out digits : List UInt8} {s other : Scan}

theorem Grows.stop (para out digits : List UInt8) : Grows out (.stop para out digits []) :=
  ⟨le_rfl, List.forall_mem_nil _⟩

theorem Grows.fail (para out digits : List UInt8) : Grows out (.fail para out digits) :=
  ⟨le_rfl, List.forall_mem_nil _⟩

theorem Grows.read (h : Grows out s) (para : List UInt8) : Grows out (s.after [.read para]) :=
  ⟨h.le, List.forall_mem_cons.mpr ⟨trivial, h.below⟩⟩

theorem Grows.store (h : Grows (out ++ [x]) s) : Grows out (s.after [.strbuf out.length]) := by
  have hle : out.length + 1 ≤ s.out.length := by simpa using h.le
  exact ⟨Nat.le_of_succ_le hle, List.forall_mem_cons.mpr ⟨hle, h.below⟩⟩

theorem Grows.ended {e : End} (out digits : List UInt8) (he : ∀ a ∈ e.log, Below out.length a) :
    Grows out (.ended e out digits) :=
  ⟨le_rfl, he⟩

theorem Grows.scanNil (limit : Nat) (out digits : List UInt8) :
    Grows out (scanNil limit out digits) := by
  refine ⟨le_rfl, ?_⟩
  unfold AtCmd.scanNil
  split_ifs
  · exact List.forall_mem_cons.mpr ⟨trivial, List.forall_mem_nil _⟩
  · exact List.forall_mem_nil _

theorem paraEnd_below {e : End} (h : paraEnd b para = some e) (n : Nat) :
    ∀ a ∈ e.log, Below n a := by
  unfold paraEnd at h
  split_ifs at h <;> cases h <;> simp [Below]

theorem Grows.scanByte (h : Grows out other) :
    Grows out (scanByte limit b para out digits other) := by
  unfold AtCmd.scanByte
  split
  · refine .read ?_ _
    split
    · rename_i e he
      exact .ended out digits (paraEnd_below he out.length)
    · exact h
  · exact .stop ..

theorem textLoop_grows (limit : Nat) (para out : List UInt8) :
    Grows out (textLoop limit para out) := by
  induction para generalizing out with
  | nil => exact .scanNil ..
  | cons b para ih =>
    refine .scanByte ?_
    split_ifs
    · exact ih out
    · exact (ih _).store

theorem diLoop_grows (para out : List UInt8) : Grows out (diLoop para out) := by
  induction para generalizing out with
  | nil => exact .scanNil ..
  | cons b para ih =>
    refine .scanByte ?_
    split_ifs
    · exact .ended _ _ (List.forall_mem_nil _)
    · exact (ih _).store
    · exact .fail ..

theorem hiLoop_grows (para out : List UInt8) : Grows out (hiLoop para out) := by
  induction para generalizing out with
  | nil => exact .scanNil ..
  | cons b para ih =>
    refine .scanByte ?_
    split_ifs
    · exact ih out
    · exact (ih _).store
    · exact .fail ..

theorem hexLoop_grows (limit : Nat) (para out hexbuf : List UInt8) :
    Grows out (hexLoop limit para out hexbuf) := by
  induction para generalizing out hexbuf with
  | nil => exact .scanNil ..
  | cons b para ih =>
    refine .scanByte ?_
    split_ifs
    · exact .ended _ _ (List.forall_mem_nil _)
    · exact ih _ _
    · exact ih _ _
    · exact .fail ..
    · exact ((ih (out ++ [hexByte hexbuf]) [b]).read _).store
    · exact ((Grows.fail (b :: para) (out ++ [hexByte hexbuf]) []).read _).store
    · exact (Grows.stop (b :: para) (out ++ [hexByte hexbuf]) []).store

theorem ipLoop_grows (para out decbuf : List UInt8) : Grows out (ipLoop para out decbuf) := by
  induction para generalizing out decbuf with
  | nil => exact .scanNil ..
  | cons b para ih =>
    refine .scanByte ?_
    split_ifs
    · exact ih _ _
    · split
      · exact (ih _ _).store
      · exact .fail ..
    · exact ih _ _
    · exact .fail ..
    · exact .fail ..

/-- The stores of a loop are kept where those behind it are. -/
theorem Grows.kept_iff (h : Grows out s) {log : List Access}
    (hlog : (∀ a ∈ log, Kept a) → s.out.length ≤ atParaMaxSize) :
    (∀ a ∈ Access.strbuf 0 :: (s.log ++ log), Kept a) ↔ ∀ a ∈ log, Kept a := by
  constructor
  · exact fun hall a ha => hall a (List.mem_cons_of_mem _ (List.mem_append_right _ ha))
  · intro hall
    have hle := hlog hall
    have hzero : Kept (.strbuf 0) := by
      change 0 < atParaMaxSize
      decide
    refine List.forall_mem_cons.mpr ⟨hzero, List.forall_mem_append.mpr ⟨?_, hall⟩⟩
    intro a ha
    have hbelow := h.below a ha
    cases a with
    | read => trivial
    | strbuf i => exact Nat.lt_of_lt_of_le hbelow hle
    | pvar => exact hbelow.elim

end

/-- The value fits `strbuf` and its destination. -/
def Fits (d : Descriptor) (v : List UInt8) : Prop :=
  match d.pt with
  | .text => v.length < atParaMaxSize ∧ v.length < d.size
  | .hex => v.length ≤ atParaMaxSize ∧ sizeLimit d.option ≤ d.size
  | .di | .hi | .ip => 4 ≤ d.size

theorem kept_pair {a a' : Access} : (∀ x ∈ [a, a'], Kept x) ↔ Kept a ∧ Kept a' := by
  simp

section
variable {opt size : Nat} {para v para' : List UInt8} {overFlag : Bool}

theorem getTextPara_kept_iff (h : (getTextPara size opt para).Is v para' overFlag) :
    (∀ a ∈ (getTextPara size opt para).log, Kept a) ↔ Fits ⟨.text, size, opt⟩ v := by
  have hgrows := textLoop_grows (sizeLimit opt) para []
  rw [getTextPara] at h ⊢
  obtain ⟨hok, rfl, -⟩ := got_is.mp h
  rw [Scan.got, hok, if_pos rfl, hgrows.kept_iff, kept_pair]
  · exact Iff.rfl
  · exact fun hall => Nat.le_of_lt (kept_pair.mp hall).1

theorem getHexPara_kept_iff (h : (getHexPara size opt para).Is v para' overFlag)
    (hlen : v.length ≤ sizeLimit opt) :
    (∀ a ∈ (getHexPara size opt para).log, Kept a) ↔ Fits ⟨.hex, size, opt⟩ v := by
  have hgrows := hexLoop_grows (sizeLimit opt) para [] []
  rw [getHexPara] at h ⊢
  dsimp only at h ⊢
  split_ifs at h ⊢
  · obtain ⟨hok, rfl, -⟩ := got_is.mp h
    rw [Scan.got, hok, if_pos rfl]
    dsimp only [Scan.put] at hlen ⊢
    rw [List.append_assoc, hgrows.kept_iff]
    · simp only [List.cons_append, List.nil_append, List.forall_mem_cons]
      simp only [List.length_append, List.length_singleton] at hlen ⊢
      constructor
      · rintro ⟨hbuf, hsize, -, -⟩
        refine ⟨?_, hsize⟩
        rw [List.length_append]
        exact hbuf
      · rintro ⟨hbuf, hsize⟩
        rw [List.length_append] at hbuf
        exact ⟨hbuf, hsize, Nat.le_trans hlen hsize, List.forall_mem_nil _⟩
    · intro hall
      exact Nat.le_of_lt (hall _ (List.mem_append_left _ List.mem_cons_self))
  · exact absurd (got_is.mp h).1 Bool.false_ne_true

/-- The stores of an integer: its digits fit `strbuf`. -/
theorem kept_int {s : Scan} (h : Grows [] s) (hlt : s.out.length < intLimit) :
    (∀ a ∈ Access.strbuf 0 :: (s.log ++ [.strbuf s.out.length, .pvar size 4]), Kept a) ↔
      4 ≤ size := by
  have hbuf : s.out.length < atParaMaxSize := Nat.lt_of_lt_of_le hlt intLimit_le
  rw [h.kept_iff fun _ => hbuf.le, kept_pair]
  exact and_iff_right hbuf

theorem getDiPara_kept_iff (h : (getDiPara size opt para).Is v para' overFlag) :
    (∀ a ∈ (getDiPara size opt para).log, Kept a) ↔ Fits ⟨.di, size, opt⟩ v := by
  rw [getDiPara] at h ⊢
  have hok := (got_is.mp h).1
  rw [Scan.got, hok, if_pos rfl]
  exact kept_int (diLoop_grows para []) (of_decide_eq_true hok).2.2.2

theorem getHiPara_kept_iff (h : (getHiPara size opt para).Is v para' overFlag) :
    (∀ a ∈ (getHiPara size opt para).log, Kept a) ↔ Fits ⟨.hi, size, opt⟩ v := by
  rw [getHiPara] at h ⊢
  have hok := (got_is.mp h).1
  rw [Scan.got, hok, if_pos rfl]
  exact kept_int (hiLoop_grows para []) (of_decide_eq_true hok).2.2.2

theorem getIpPara_kept_iff (h : (getIpPara size opt para).Is v para' overFlag) :
    (∀ a ∈ (getIpPara size opt para).log, Kept a) ↔ Fits ⟨.ip, size, opt⟩ v := by
  have hgrows := ipLoop_grows para [] []
  rw [getIpPara] at h ⊢
  dsimp only at h ⊢
  split_ifs at h ⊢
  · split at h
    · rename_i num hnum
      obtain ⟨hok, rfl, -⟩ := got_is.mp h
      have hlen := (of_decide_eq_true hok).2
      rw [Scan.got, hok, if_pos rfl]
      dsimp only [Scan.put] at hlen ⊢
      rw [List.length_append, List.length_singleton] at hlen
      have hbuf : (ipLoop para [] []).out.length < atParaMaxSize := by
        have h4 : ipLimit ≤ atParaMaxSize := by decide
        omega
      rw [List.append_assoc, hgrows.kept_iff fun _ => hbuf.le]
      simp only [List.cons_append, List.nil_append, List.forall_mem_cons]
      simp only [List.length_append, List.length_singleton, hlen]
      constructor
      · exact fun hall => hall.2.1
      · exact fun hsize => ⟨hbuf, hsize, hsize, List.forall_mem_nil _⟩
    · exact absurd (got_is.mp h).1 Bool.false_ne_true
  · exact absurd (got_is.mp h).1 Bool.false_ne_true

end

/-- The stores of a getter that has taken a value. -/
theorem getPara_kept_iff {d : Descriptor} {para v para' : List UInt8} {overFlag : Bool}
    (h : (getPara d para).Is v para' overFlag) :
    (∀ a ∈ (getPara d para).log, Kept a) ↔ Fits d v := by
  obtain ⟨text, b, rest, -, -, -, -, htakes, -⟩ := getPara_is_iff.mp h
  obtain ⟨pt, size, option⟩ := d
  cases pt with
  | text => exact getTextPara_kept_iff h
  | hex => exact getHexPara_kept_iff h htakes.2.2.2.2
  | di => exact getDiPara_kept_iff h
  | hi => exact getHiPara_kept_iff h
  | ip => exact getIpPara_kept_iff h

/-! ## Lists that are taken as they are -/

/-- The value of a form fits `strbuf` and its destination. -/
def TextFits (d : Descriptor) (text : List UInt8) : Prop :=
  match d.pt with
  | .text => text.length < atParaMaxSize ∧ text.length < d.size
  | .hex => text.length / 2 ≤ atParaMaxSize ∧ sizeLimit d.option ≤ d.size
  | .di | .hi | .ip => 4 ≤ d.size

/-- A list of values without signs, prefixes and colons, which fit. Hexadecimal data stands only before a
value that is the same without the first byte of its form. -/
inductive Sound : List Descriptor → List UInt8 → List (List UInt8) → List UInt8 → Prop
  | last {d : Descriptor} {list : List Descriptor} {text image : List UInt8} {b : UInt8}
      {rest : List UInt8} : Plain d text image → TextFits d text → d.pt ≠ .hex →
      isEnd b = true → b ≠ atSeparator →
      Sound (d :: list) (text ++ b :: rest) [image] (stopAt b rest).para
  | cons {d : Descriptor} {list : List Descriptor} {text image : List UInt8}
      {para rest : List UInt8} {images : List (List UInt8)} : Plain d text image →
      TextFits d text → d.pt ≠ .hex → Sound list para images rest →
      Sound (d :: list) (text ++ atSeparator :: para) (image :: images) rest
  | hex {d : Descriptor} {list : List Descriptor} {text image : List UInt8} {c : UInt8}
      {para rest : List UInt8} {images : List (List UInt8)} : Plain d text image →
      TextFits d text → d.pt = .hex → Listed list (c :: para) images rest →
      Sound list para images rest →
      Sound (d :: list) (text ++ atSeparator :: c :: para) (image :: images) rest

/-- The images of what is taken. -/
def images : List Descriptor → List (List UInt8) → List (List UInt8)
  | d :: list, v :: values => written d v :: images list values
  | _, _ => []

theorem images_nil (list : List Descriptor) : images list [] = [] := by
  cases list <;> rfl

/-- The values are taken and kept. -/
def Stored (list : List Descriptor) (para : List UInt8) (is : List (List UInt8))
    (rest : List UInt8) : Prop :=
  ∃ values, Taken list para values rest ∧ images list values = is ∧
    values.length = is.length ∧ ∀ a ∈ (paraLoop list para).log, Kept a

section
variable {d : Descriptor} {list : List Descriptor} {para text image v rest rest' : List UInt8}
  {values is is' : List (List UInt8)}

theorem Plain.fits_iff (h : Plain d text image) (ht : Takes d text v) :
    Fits d v ↔ TextFits d text := by
  have hquo := h.unquoted
  obtain ⟨pt, size, option⟩ := d
  cases pt with
  | text =>
    obtain ⟨rfl, -⟩ := ht
    rw [hquo]
    exact Iff.rfl
  | hex =>
    obtain ⟨-, -, -, rfl, -⟩ := ht
    rw [hquo]
    unfold Fits TextFits
    dsimp only
    rw [length_hexBytes]
  | di => exact Iff.rfl
  | hi => exact Iff.rfl
  | ip => exact Iff.rfl

theorem Listed.unique (hboth : ∀ d ∈ list, BothEnds d.option) (h : Listed list para is rest)
    (h' : Listed list para is' rest') : is = is' ∧ rest = rest' := by
  induction h generalizing is' rest' with
  | @last d list text image b rest hform hb hsep =>
    have hends := fun x hx => (hform.not_isEnd x hx).1
    generalize hp : text ++ b :: rest = para at h'
    cases h' with
    | last hform' hb' hsep' =>
      obtain ⟨rfl, rfl, rfl⟩ := Scanner.field_unique hp hends hb
        (fun x hx => (hform'.not_isEnd x hx).1) hb'
      rw [form_unique (hboth d List.mem_cons_self) hform hform']
      exact ⟨rfl, rfl⟩
    | cons hform' _ =>
      exact absurd (Scanner.field_unique hp hends hb
        (fun x hx => (hform'.not_isEnd x hx).1) rfl).2.1 hsep
  | @cons d list text image para rest images hform hlist ih =>
    have hends := fun x hx => (hform.not_isEnd x hx).1
    generalize hp : text ++ atSeparator :: para = line at h'
    cases h' with
    | last hform' hb' hsep' =>
      exact absurd (Scanner.field_unique hp hends rfl
        (fun x hx => (hform'.not_isEnd x hx).1) hb').2.1 hsep'.symm
    | cons hform' hlist' =>
      obtain ⟨rfl, -, rfl⟩ := Scanner.field_unique hp hends rfl
        (fun x hx => (hform'.not_isEnd x hx).1) rfl
      obtain ⟨rfl, rfl⟩ := ih (fun d hd => hboth d (List.mem_cons_of_mem _ hd)) hlist'
      rw [form_unique (hboth d List.mem_cons_self) hform hform']
      exact ⟨rfl, rfl⟩

/-! ### The end of a form -/

theorem leaves_endType (pt : ParaType) (b : UInt8) (rest : List UInt8) :
    (leaves pt b rest).endType = aetPara ∨ (leaves pt b rest).endType = aetLine := by
  unfold leaves
  split_ifs
  · change (hexStopAt b rest).endType = aetPara ∨ (hexStopAt b rest).endType = aetLine
    unfold hexStopAt
    split_ifs
    · exact .inl rfl
    · exact stopAt_endType b rest
  · exact stopAt_endType b rest

theorem leaves_admitted (hboth : BothEnds d.option) (b : UInt8) (rest : List UInt8) :
    (leaves d.pt b rest).endType &&& d.option ≠ 0 := by
  rcases leaves_endType d.pt b rest with h | h <;> rw [h]
  · exact hboth.1
  · exact hboth.2

theorem leaves_plain {pt : ParaType} (h : pt ≠ .hex) (b : UInt8) (rest : List UInt8) :
    leaves pt b rest = stopAt b rest :=
  if_neg h

theorem leaves_hex {pt : ParaType} {b : UInt8} (h : pt = .hex) (hb : isEnd b = true)
    (rest : List UInt8) : leaves pt b rest =
      { stopAt b rest with para := (stopAt b rest).para.tail } := by
  have hc : b ≠ atColon := by
    rintro rfl
    exact Bool.false_ne_true (isEnd_colon.symm.trans hb)
  rw [leaves, if_pos h, hexStopAt, if_neg hc]

theorem stopAt_line {b : UInt8} (hb : isEnd b = true) (hsep : b ≠ atSeparator)
    (rest : List UInt8) : (stopAt b rest).overFlag = true := by
  rcases isEnd_cases hb with rfl | rfl | rfl
  · exact absurd rfl hsep
  · rfl
  · rfl

theorem leaves_overFlag {b : UInt8} (hb : isEnd b = true) (pt : ParaType) (rest : List UInt8) :
    (leaves pt b rest).overFlag = (stopAt b rest).overFlag := by
  by_cases h : pt = .hex
  · rw [leaves_hex h hb]
  · rw [leaves_plain h]

/-- A form that fits is taken and kept. -/
theorem Plain.getPara (hboth : BothEnds d.option) (h : Plain d text image)
    (hfits : TextFits d text) {b : UInt8} (hb : isEnd b = true) (rest : List UInt8) :
    ∃ v, written d v = image ∧ (getPara d (text ++ b :: rest)).Is v (leaves d.pt b rest).para
      (stopAt b rest).overFlag ∧ ∀ a ∈ (getPara d (text ++ b :: rest)).log, Kept a := by
  obtain ⟨v, hv, himage⟩ := h.takes
  have his := getPara_is_iff.mpr ⟨text, b, rest, rfl, fun x hx => (h.not_stops x hx).1,
    stops_of_isEnd d.pt hb, leaves_admitted hboth b rest, hv, rfl, leaves_overFlag hb d.pt rest⟩
  exact ⟨v, himage, his, (getPara_kept_iff his).mpr ((h.fits_iff hv).mpr hfits)⟩

/-- What a getter takes of a text and the byte it stops at. -/
theorem of_stop (hstops : ∀ x ∈ text, stops d.pt x = false) {b : UInt8} (hb : stops d.pt b = true)
    {overFlag : Bool} (hfield : Field d (text ++ b :: rest) v rest' overFlag) :
    Takes d text v ∧ (leaves d.pt b rest).para = rest' ∧
      (leaves d.pt b rest).overFlag = overFlag := by
  obtain ⟨text', b', rest₁, hsplit, htext', hb', -, htakes, hpara, ho⟩ := hfield
  obtain ⟨rfl, rfl, rfl⟩ := Scanner.field_unique hsplit hstops hb htext' hb'
  exact ⟨htakes, hpara, ho⟩

/-- What a getter takes of a text and its end. -/
theorem of_field (hstops : ∀ x ∈ text, stops d.pt x = false) {b : UInt8} (hb : isEnd b = true)
    {overFlag : Bool} (hfield : Field d (text ++ b :: rest) v rest' overFlag) :
    Takes d text v ∧ (leaves d.pt b rest).para = rest' ∧
      (stopAt b rest).overFlag = overFlag := by
  obtain ⟨htakes, hpara, ho⟩ := of_stop hstops (stops_of_isEnd d.pt hb) hfield
  exact ⟨htakes, hpara, by rw [← ho, leaves_overFlag hb]⟩

/-- Data with colons is taken up to the first of them. -/
theorem of_colon (hx : d.pt = .hex) (htext : ∀ x ∈ text, isHex x = true) {overFlag : Bool}
    (hfield : Field d (text ++ atColon :: rest) v rest' overFlag) :
    Takes d text v ∧ rest' = rest ∧ overFlag = false := by
  have hcolon : stops d.pt atColon = true := by
    rw [hx]
    rfl
  obtain ⟨htakes, hpara, ho⟩ :=
    of_stop (fun x h => (not_stops_of_isHex (htext x h) d.pt).1) hcolon hfield
  rw [leaves, if_pos hx, hexStopAt, if_pos rfl] at hpara ho
  exact ⟨htakes, hpara.symm, ho.symm⟩

/-- The first value that is taken. -/
theorem Taken.head {line : List UInt8} (h : Taken (d :: list) line values rest) :
    ∃ v values' para overFlag, values = v :: values' ∧ Field d line v para overFlag ∧
      (overFlag = true ∧ values' = [] ∧ rest = para ∨
        overFlag = false ∧ Taken list para values' rest) := by
  cases h with
  | last hfield => exact ⟨_, [], _, true, rfl, hfield, .inl ⟨rfl, rfl, rfl⟩⟩
  | cons hfield htaken => exact ⟨_, _, _, false, rfl, hfield, .inr ⟨rfl, htaken⟩⟩

theorem paraLoop_log_last {d : Descriptor} {para v rest : List UInt8}
    (h : (getPara d para).Is v rest true) (list : List Descriptor) :
    (paraLoop (d :: list) para).log = (getPara d para).log := by
  obtain ⟨herr, -, -, ho⟩ := h
  rw [paraLoop]
  dsimp only
  rw [herr, ho, if_neg Bool.false_ne_true, if_pos rfl]

theorem paraLoop_log_cons {d : Descriptor} {para v rest : List UInt8}
    (h : (getPara d para).Is v rest false) (list : List Descriptor) :
    (paraLoop (d :: list) para).log = (getPara d para).log ++ (paraLoop list rest).log := by
  obtain ⟨herr, -, hpara, ho⟩ := h
  rw [paraLoop]
  dsimp only
  rw [herr, ho, if_neg Bool.false_ne_true, if_neg Bool.false_ne_true, hpara]

theorem Sound.listed (h : Sound list para is rest) : Listed list para is rest := by
  induction h with
  | last hplain _ _ hb hsep => exact .last (.inl hplain) hb hsep
  | cons hplain _ _ _ ih => exact .cons (.inl hplain) ih
  | hex hplain _ _ hlist _ _ => exact .cons (.inl hplain) hlist

theorem Stored.last {d : Descriptor} {para v rest : List UInt8}
    (h : (AtCmd.getPara d para).Is v rest true) (hkept : ∀ a ∈ (AtCmd.getPara d para).log, Kept a)
    (list : List Descriptor) : Stored (d :: list) para [written d v] rest := by
  refine ⟨[v], .last (getPara_is_iff.mp h), by rw [images, images_nil], rfl, ?_⟩
  rw [paraLoop_log_last h]
  exact hkept

theorem Stored.cons {d : Descriptor} {para para' v : List UInt8}
    (h : (AtCmd.getPara d para).Is v para' false)
    (hkept : ∀ a ∈ (AtCmd.getPara d para).log, Kept a) (hs : Stored list para' is rest) :
    Stored (d :: list) para (written d v :: is) rest := by
  obtain ⟨values, htaken, rfl, hlen, hall⟩ := hs
  refine ⟨v :: values, .cons (getPara_is_iff.mp h) htaken, rfl, by simp [hlen], ?_⟩
  rw [paraLoop_log_cons h]
  exact List.forall_mem_append.mpr ⟨hkept, hall⟩

/-- Such a list is taken as it is, and its stores are kept. -/
theorem Sound.stored (hboth : ∀ d ∈ list, BothEnds d.option) (h : Sound list para is rest) :
    Stored list para is rest := by
  induction h with
  | @last d list text image b rest hplain hfits hx hb hsep =>
    obtain ⟨v, rfl, his, hkept⟩ := hplain.getPara (hboth d List.mem_cons_self) hfits hb rest
    rw [leaves_plain hx, stopAt_line hb hsep] at his
    exact .last his hkept list
  | @cons d list text image para rest is hplain hfits hx _ ih =>
    obtain ⟨v, rfl, his, hkept⟩ :=
      hplain.getPara (hboth d List.mem_cons_self) hfits (b := atSeparator) rfl para
    rw [leaves_plain hx] at his
    exact .cons his hkept (ih fun d hd => hboth d (List.mem_cons_of_mem _ hd))
  | @hex d list text image c para rest is hplain hfits hx _ _ ih =>
    obtain ⟨v, rfl, his, hkept⟩ :=
      hplain.getPara (hboth d List.mem_cons_self) hfits (b := atSeparator) rfl (c :: para)
    rw [leaves_hex hx rfl] at his
    exact .cons his hkept (ih fun d hd => hboth d (List.mem_cons_of_mem _ hd))

theorem Form.shift_of_taken {c b : UInt8} (h : Form d (c :: text) image) (hb : isEnd b = true)
    (ht : Taken (d :: list) (text ++ b :: rest) values rest')
    (hi : images (d :: list) values = image :: is) : Plain d text image := by
  obtain ⟨v, values', para, overFlag, rfl, hfield, -⟩ := ht.head
  obtain ⟨hw, -⟩ := List.cons_eq_cons.mp hi
  rcases h.cases with hstops | ⟨hx, a, a', more, heq, -, ha', -⟩
  · have hstops' := fun x hx => (hstops x (List.mem_cons_of_mem c hx)).1
    exact (h.shift (of_field hstops' hb hfield).1 hw).1
  · -- of the first pair one digit is left
    obtain ⟨rfl, rfl⟩ := List.cons_eq_cons.mp heq
    have hdigit : ∀ x ∈ [a'], isHex x = true := by simpa using ha'
    have htakes := (of_colon hx hdigit hfield).1
    unfold Takes at htakes
    rw [hx] at htakes
    obtain ⟨-, heven, hne, -⟩ := htakes
    have hle : (AtCmd.unquoted [a']).length ≤ 1 := List.length_filter_le _ _
    have hpos := List.length_pos_iff.mpr hne
    omega

/-- The first byte of a list may be skipped where its first value is the same without it. -/
theorem Listed.shift {c : UInt8} (h : Listed list (c :: para) is rest)
    (ht : Taken list para values rest') (hi : images list values = is) :
    Listed list para is rest := by
  generalize hl : c :: para = line at h
  cases h with
  | @last d list text image b rest hform hb hsep =>
    obtain ⟨c', text, rfl⟩ := List.exists_cons_of_ne_nil hform.ne_nil
    obtain ⟨-, rfl⟩ := List.cons_eq_cons.mp hl
    have hplain := hform.shift_of_taken hb ht hi
    exact .last (.inl hplain) hb hsep
  | @cons d list text image line rest images hform hlist =>
    obtain ⟨c', text, rfl⟩ := List.exists_cons_of_ne_nil hform.ne_nil
    obtain ⟨-, rfl⟩ := List.cons_eq_cons.mp hl
    have hplain := hform.shift_of_taken rfl ht hi
    exact .cons (.inl hplain) hlist

theorem Listed.head (h : Listed list para is rest) :
    ∃ c para', para = c :: para' ∧ isEnd c = false := by
  have hhead : ∀ {d : Descriptor} {text image line : List UInt8}, Form d text image →
      ∃ c para', text ++ line = c :: para' ∧ isEnd c = false := fun hform => by
    obtain ⟨c, text, rfl⟩ := List.exists_cons_of_ne_nil hform.ne_nil
    exact ⟨c, _, rfl, (hform.not_isEnd c List.mem_cons_self).1⟩
  cases h with
  | last hform _ _ => exact hhead hform
  | cons hform _ => exact hhead hform

/-- Something stands behind the line. -/
theorem InLine.rest_ne_nil {x b : UInt8} {behind : List UInt8}
    (h : InLine (x :: behind) (b :: rest)) (hb : isEnd b = true) (hsep : b ≠ atSeparator) :
    (stopAt b rest).para ≠ [] := by
  generalize hl : b :: rest = line at h
  cases h with
  | lf =>
    obtain ⟨rfl, rfl⟩ := List.cons_eq_cons.mp hl
    exact List.cons_ne_nil x behind
  | cr next =>
    obtain ⟨rfl, rfl⟩ := List.cons_eq_cons.mp hl
    rw [stopAt, if_neg (by decide), if_pos rfl]
    dsimp only
    split_ifs
    · exact List.cons_ne_nil x behind
    · exact List.cons_ne_nil next _
  | cons hcr hlf _ =>
    obtain ⟨rfl, -⟩ := List.cons_eq_cons.mp hl
    rcases isEnd_cases hb with h | h | h
    · exact absurd h hsep
    · exact absurd h hcr
    · exact absurd h hlf

theorem InLine.behind_separator {behind : List UInt8} (hends : ∀ x ∈ text, isEnd x = false)
    (h : InLine behind (text ++ atSeparator :: rest)) : InLine behind rest :=
  (InLine.drop hends h).tail (by decide) (by decide)

theorem InLine.behind_byte {c : UInt8} {behind : List UInt8} (hc : isEnd c = false)
    (h : InLine behind (c :: rest)) : InLine behind rest := by
  refine h.tail ?_ ?_
  · rintro rfl
    exact absurd hc (by decide)
  · rintro rfl
    exact absurd hc (by decide)

/-! ### Data with colons -/

theorem length_images {list : List Descriptor} : ∀ {values : List (List UInt8)},
    values.length ≤ list.length → (images list values).length = values.length := by
  induction list with
  | nil =>
    intro values hlen
    obtain rfl := List.length_eq_zero_iff.mp (Nat.le_zero.mp hlen)
    rfl
  | cons d list ih =>
    intro values hlen
    cases values with
    | nil => rfl
    | cons v values =>
      rw [images, List.length_cons, ih (Nat.le_of_succ_le_succ hlen), List.length_cons]

theorem Taken.length_le (h : Taken list para values rest) : values.length ≤ list.length := by
  induction h with
  | nil => exact le_rfl
  | last _ => exact Nat.succ_le_succ (Nat.zero_le _)
  | cons _ _ ih => exact Nat.succ_le_succ ih

theorem Taken.of_nil (h : Taken list para [] rest) : rest = para := by
  cases h
  rfl

theorem stopAt_para_le (b : UInt8) (rest : List UInt8) :
    (stopAt b rest).para.length ≤ rest.length := by
  unfold stopAt
  split_ifs
  · exact le_rfl
  · rw [List.length_tail]
    exact Nat.sub_le ..
  · exact le_rfl
  · exact le_rfl

/-- A list of values has a byte and an end. -/
theorem Listed.rest_lt (h : Listed list para is rest) : rest.length + 1 < para.length := by
  induction h with
  | @last d list text image b rest hform _ _ =>
    have hpos := List.length_pos_iff.mpr hform.ne_nil
    have hle := stopAt_para_le b rest
    rw [List.length_append, List.length_cons]
    omega
  | cons _ _ ih =>
    rw [List.length_append, List.length_cons]
    omega

/-- The pointer behind a parameter that stops at a separator or a colon. -/
theorem leaves_para (pt : ParaType) {b : UInt8} (hcr : b ≠ atCr) (rest : List UInt8) :
    (leaves pt b rest).para = rest ∨ (leaves pt b rest).para = rest.tail := by
  have hstop : (stopAt b rest).para = rest := by
    unfold stopAt
    split_ifs
    · rfl
    · rfl
  unfold leaves
  split_ifs
  · unfold hexStopAt
    split_ifs
    · exact .inl rfl
    · exact .inr (congrArg List.tail hstop)
  · exact .inl hstop

/-- A byte that does not end the line. -/
def InText (x : UInt8) : Prop := x ≠ atCr ∧ x ≠ atLf

theorem Form.inText (h : Form d text image) : ∀ x ∈ text, InText x := by
  intro x hx
  have hend := (h.not_isEnd x hx).1
  constructor
  · rintro rfl
    exact absurd hend (by decide)
  · rintro rfl
    exact absurd hend (by decide)

/-- A getter does not get past the separator behind `u`, but for a byte. -/
theorem Field.behind {u para' : List UInt8} {overFlag : Bool} (hu : ∀ x ∈ u, InText x)
    (h : Field d (u ++ atSeparator :: para) v para' overFlag) :
    (∃ w, (∀ x ∈ w, InText x) ∧ para' = w ++ para) ∨ para' = para.tail := by
  obtain ⟨text, b, rest, hsplit, hstops, -, -, -, rfl, -⟩ := h
  have hsep : InText atSeparator := ⟨by decide, by decide⟩
  have hcases : b = atSeparator ∧ rest = para ∨
      ∃ u', b ∈ u ∧ (∀ x ∈ u', InText x) ∧ rest = u' ++ atSeparator :: para := by
    rcases List.append_eq_append_iff.mp hsplit with ⟨as, rfl, heq⟩ | ⟨bs, rfl, heq⟩
    · cases as with
      | nil =>
        obtain ⟨rfl, rfl⟩ := List.cons_eq_cons.mp heq
        exact .inl ⟨rfl, rfl⟩
      | cons a as =>
        obtain ⟨rfl, -⟩ := List.cons_eq_cons.mp heq
        have hstop := hstops atSeparator (by simp)
        exact absurd hstop (by rw [stops_of_isEnd d.pt rfl]; decide)
    · cases bs with
      | nil =>
        obtain ⟨rfl, rfl⟩ := List.cons_eq_cons.mp heq
        exact .inl ⟨rfl, rfl⟩
      | cons a bs =>
        obtain ⟨rfl, rfl⟩ := List.cons_eq_cons.mp heq
        exact .inr ⟨bs, by simp, fun x hx => hu x (by simp [hx]), rfl⟩
  rcases hcases with ⟨rfl, rfl⟩ | ⟨u', hb, hu', rfl⟩
  · exact (leaves_para d.pt hsep.1 rest).imp (fun h => ⟨[], List.forall_mem_nil _, h⟩) id
  · have hbehind : ∀ w, (∀ x ∈ w, InText x) → ∀ x ∈ w ++ [atSeparator], InText x := by
      intro w hw x hx
      rcases List.mem_append.mp hx with hx | hx
      · exact hw x hx
      · exact List.mem_singleton.mp hx ▸ hsep
    refine .inl ?_
    rcases leaves_para d.pt (hu b hb).1 (u' ++ atSeparator :: para) with h | h
    · exact ⟨u' ++ [atSeparator], hbehind u' hu', by rw [h, List.append_assoc]; rfl⟩
    · cases u' with
      | nil => exact ⟨[], List.forall_mem_nil _, h⟩
      | cons a u' =>
        exact ⟨u' ++ [atSeparator], hbehind u' fun x hx => hu' x (List.mem_cons_of_mem a hx),
          by rw [h, List.append_assoc]; rfl⟩

/-- With something in front of a list of values, as many values as it has do not reach its end. -/
theorem Taken.behind {u : List UInt8} (hu : ∀ x ∈ u, InText x) (hlisted : Listed list para is rest)
    (htaken : Taken list (u ++ atSeparator :: para) values rest')
    (hlen : values.length ≤ is.length) : rest.length < rest'.length := by
  induction list generalizing u para is values with
  | nil => cases hlisted
  | cons d list ih =>
    obtain ⟨v, values', para', overFlag, rfl, hfield, htail⟩ := htaken.head
    have hbehind := Field.behind hu hfield
    have hlt := hlisted.rest_lt
    have hpara' : rest.length < para'.length := by
      rcases hbehind with ⟨w, -, rfl⟩ | rfl
      · rw [List.length_append]
        omega
      · rw [List.length_tail]
        omega
    rcases htail with ⟨-, -, rfl⟩ | ⟨-, htaken'⟩
    · exact hpara'
    cases hlisted with
    | last _ _ _ =>
      obtain rfl := List.length_eq_zero_iff.mp (Nat.le_zero.mp (Nat.le_of_succ_le_succ hlen))
      rw [htaken'.of_nil]
      exact hpara'
    | @cons _ _ text image para _ is hform hlist =>
      have hlen' := Nat.le_of_succ_le_succ hlen
      rcases hbehind with ⟨w, hw, rfl⟩ | rfl
      · rw [← List.append_assoc] at htaken'
        refine ih (fun x hx => ?_) hlist htaken' hlen'
        exact (List.mem_append.mp hx).elim (hw x) (hform.inText x)
      · obtain ⟨c, text, rfl⟩ := List.exists_cons_of_ne_nil hform.ne_nil
        exact ih (fun x hx => hform.inText x (List.mem_cons_of_mem c hx)) hlist htaken' hlen'

/-- Data with colons is not taken as it is: the getter is left behind. -/
theorem not_taken_colons (hx : d.pt = .hex) (hcolons : Colons text) {b : UInt8}
    (hlisted : isEnd b = true ∧ b ≠ atSeparator ∧ is = [] ∧ rest = (stopAt b para).para ∨
      b = atSeparator ∧ Listed list para is rest) {values' : List (List UInt8)}
    (htaken : Taken (d :: list) (text ++ b :: para) (v :: values') rest)
    (hlen : values'.length = is.length) : False := by
  obtain ⟨a, a', more, rfl, ha, ha', hmore⟩ := hcolons
  obtain ⟨_, _, para', overFlag, heq, hfield, htail⟩ := htaken.head
  obtain ⟨rfl, rfl⟩ := List.cons_eq_cons.mp heq
  rw [List.append_assoc] at hfield
  have hdigits : ∀ x ∈ [a, a'], isHex x = true := by simp [ha, ha']
  obtain ⟨-, rfl, rfl⟩ := of_colon hx hdigits hfield
  obtain ⟨-, htaken'⟩ := htail.resolve_left fun h => Bool.false_ne_true h.1
  rcases hlisted with ⟨hb, hsep, rfl, rfl⟩ | ⟨rfl, hlisted⟩
  · obtain rfl := List.length_eq_zero_iff.mp hlen
    have hrest : (stopAt b para).para.length = (more ++ b :: para).length :=
      congrArg List.length htaken'.of_nil
    have hle := stopAt_para_le b para
    rw [List.length_append, List.length_cons] at hrest
    omega
  · have hmore' : ∀ x ∈ more, InText x := by
      intro x hx
      have hend := (hmore x hx).1
      constructor
      · rintro rfl
        exact absurd hend (by decide)
      · rintro rfl
        exact absurd hend (by decide)
    exact Nat.lt_irrefl _ (htaken'.behind hmore' hlisted (Nat.le_of_eq hlen))

/-- A list of values that is taken and kept, up to the same pointer. -/
theorem sound_of_taken {x : UInt8} {behind : List UInt8} :
    ∀ {para : List UInt8} {is : List (List UInt8)} {values : List (List UInt8)},
      InLine (x :: behind) para → Listed list para is rest → Taken list para values rest →
        images list values = is → (∀ a ∈ (paraLoop list para).log, Kept a) →
          Sound list para is rest := by
  induction list with
  | nil =>
    intro para is values _ hlisted
    cases hlisted
  | cons d list ih =>
    intro para is values hline hlisted htaken hi hkept
    have hcount := congrArg List.length hi
    rw [length_images htaken.length_le] at hcount
    obtain ⟨v, values', para', overFlag, rfl, hfield, htail⟩ := htaken.head
    have his := getPara_is_iff.mpr hfield
    cases hlisted with
    | @last _ _ text image b rest hform hb hsep =>
      obtain hall | ⟨hx, hcolons⟩ := hform.cases
      case inr =>
        exact (not_taken_colons hx hcolons (.inl ⟨hb, hsep, rfl, rfl⟩) htaken
          (Nat.succ.inj hcount)).elim
      have hstops := fun x hx => (hall x hx).1
      obtain ⟨htakes, hpara, ho⟩ := of_field hstops hb hfield
      obtain rfl : true = overFlag := (stopAt_line hb hsep rest).symm.trans ho
      obtain ⟨-, rfl, hrest⟩ := htail.resolve_right fun h => Bool.false_ne_true h.1.symm
      rw [paraLoop_log_last his] at hkept
      have hplain := hform.plain htakes
      have hfits := (hplain.fits_iff htakes).mp ((getPara_kept_iff his).mp hkept)
      refine .last hplain hfits (fun hx => ?_) hb hsep
      -- the pointer behind hexadecimal data is not the one behind the line
      rw [leaves_hex hx hb, ← hrest] at hpara
      have hends := fun x hx => isEnd_of_stops (hstops x hx)
      have hne := InLine.rest_ne_nil (InLine.drop hends hline) hb hsep
      obtain ⟨y, ys, hcons⟩ := List.exists_cons_of_ne_nil hne
      rw [hcons] at hpara
      exact absurd (congrArg List.length hpara) (by simp)
    | @cons _ _ text image para _ is hform hlist =>
      obtain hall | ⟨hx, hcolons⟩ := hform.cases
      case inr =>
        exact (not_taken_colons hx hcolons (.inr ⟨rfl, hlist⟩) htaken (Nat.succ.inj hcount)).elim
      have hstops := fun x hx => (hall x hx).1
      have hends := fun x hx => isEnd_of_stops (hstops x hx)
      obtain ⟨htakes, hpara, ho⟩ := of_field (b := atSeparator) hstops rfl hfield
      obtain rfl : false = overFlag := ho
      obtain ⟨-, htaken'⟩ := htail.resolve_left fun h => Bool.false_ne_true h.1
      obtain ⟨-, hi'⟩ := List.cons_eq_cons.mp hi
      rw [paraLoop_log_cons his] at hkept
      obtain ⟨hkept, hkept'⟩ := List.forall_mem_append.mp hkept
      have hplain := hform.plain htakes
      have hfits := (hplain.fits_iff htakes).mp ((getPara_kept_iff his).mp hkept)
      have hline' := InLine.behind_separator hends hline
      by_cases hx : d.pt = .hex
      · rw [leaves_hex hx rfl] at hpara
        obtain ⟨c, para, rfl, hc⟩ := hlist.head
        obtain rfl : para = para' := hpara
        have hshift := hlist.shift htaken' hi'
        exact .hex hplain hfits hx hlist
          (ih (InLine.behind_byte hc hline') hshift htaken' hi' hkept')
      · rw [leaves_plain hx] at hpara
        obtain rfl : para = para' := hpara
        exact .cons hplain hfits hx (ih hline' hlist htaken' hi' hkept')

/-! ## By position -/

theorem store_holding {list : List Descriptor} : ∀ {values : List (List UInt8)},
    values.length ≤ list.length → ∀ dests,
      store list values dests = holding (images list values) dests := by
  induction list with
  | nil =>
    intro values hlen dests
    obtain rfl := List.length_eq_zero_iff.mp (Nat.le_zero.mp hlen)
    rfl
  | cons d list ih =>
    intro values hlen dests
    cases values with
    | nil => rfl
    | cons v values =>
      cases dests with
      | nil => rfl
      | cons dest dests =>
        rw [store, images, holding, ih (Nat.le_of_succ_le_succ hlen)]

/-- In empty destinations the values themselves are seen. -/
theorem eq_of_holding : ∀ {is is' : List (List UInt8)}, is.length = is'.length →
    (∀ dests, holding is dests = holding is' dests) → is = is' := by
  intro is
  induction is with
  | nil =>
    intro is' hlen _
    exact (List.length_eq_zero_iff.mp hlen.symm).symm
  | cons image is ih =>
    intro is' hlen h
    obtain ⟨image', is', rfl⟩ : ∃ image' is'', is' = image' :: is'' := by
      cases is' with
      | nil => exact absurd hlen (by simp)
      | cons image' is'' => exact ⟨image', is'', rfl⟩
    have hstep : ∀ dests, overlay [] image = overlay [] image' ∧
        holding is dests = holding is' dests := fun dests => List.cons_eq_cons.mp (h ([] :: dests))
    have himage : image = image' := by simpa [overlay] using (hstep []).1
    rw [himage, ih (Nat.succ.inj hlen) fun dests => (hstep dests).2]

end

/-- The parameters go by position exactly where a line that begins with a list of values, or that
the getters take, is a list of values that is taken as it is. -/
theorem by_position_iff {d : Descriptor} {list : List Descriptor} {x : UInt8}
    {behind para : List UInt8} (hboth : ∀ d' ∈ d :: list, BothEnds d'.option)
    (hline : InLine (x :: behind) para) :
    ByPosition (d :: list) para ↔
      ((∃ is rest, Listed (d :: list) para is rest) ∨
          (∃ values rest, Taken (d :: list) para values rest) →
        ∃ is rest, Sound (d :: list) para is rest) := by
  have hget : atGetParameters (d :: list) para = paraLoop (d :: list) para :=
    if_neg (List.cons_ne_nil d list)
  constructor
  · intro hpos h
    have hok : (atGetParameters (d :: list) para).error = false := by
      rcases h with ⟨is, rest, hlisted⟩ | ⟨values, rest, htaken⟩
      · exact (hpos.stores is rest hlisted).1
      · rw [hget]
        exact (paraLoop_of_taken htaken).1
    obtain ⟨is, hlisted⟩ := hpos.consumes hok
    obtain ⟨-, hlen, hstore, hkept⟩ := hpos.stores is _ hlisted
    rw [hget] at hok hlisted hlen hstore hkept
    have htaken := paraLoop_taken para hok
    have himages : images (d :: list) (paraLoop (d :: list) para).values = is := by
      refine eq_of_holding ((length_images htaken.length_le).trans hlen) fun dests => ?_
      rw [← store_holding htaken.length_le, hstore]
    exact ⟨is, _, sound_of_taken hline hlisted htaken himages hkept⟩
  · intro hsound
    refine ⟨fun is rest hlisted => ?_, fun hok => ?_⟩
    · obtain ⟨is', rest', h⟩ := hsound (.inl ⟨is, rest, hlisted⟩)
      obtain ⟨rfl, rfl⟩ := hlisted.unique hboth h.listed
      obtain ⟨values, htaken, rfl, hlen, hkept⟩ := h.stored hboth
      obtain ⟨hok, hvalues, -⟩ := paraLoop_of_taken htaken
      rw [hget, hvalues]
      exact ⟨hok, hlen, store_holding htaken.length_le, hkept⟩
    · rw [hget] at hok ⊢
      obtain ⟨is, rest, h⟩ := hsound (.inr ⟨_, _, paraLoop_taken para hok⟩)
      obtain ⟨values, htaken, -, -, -⟩ := h.stored hboth
      rw [(paraLoop_of_taken htaken).2.2]
      exact ⟨is, h.listed⟩

/-- The descriptors of `set_dhcp_handler`. -/
def dhcpList : List Descriptor := List.replicate 2 (di (aetBoth ||| sizeLimit 8))

theorem bothEnds_replicate {d : Descriptor} (h : BothEnds d.option) (n : Nat) :
    ∀ d' ∈ List.replicate n d, BothEnds d'.option := fun d' hd => by
  rw [List.eq_of_mem_replicate hd]
  exact h

set_option maxRecDepth 8000 in
theorem by_position_dhcp : ByPosition dhcpList (bytesOf "1,0" ++ [atCr, atLf, 0]) := by
  have hform : ∀ n : UInt8, n = 0x31 ∨ n = 0x30 →
      Plain (di (aetBoth ||| sizeLimit 8)) [n] (u32Bytes (decOf [n])) := by
    rintro n (rfl | rfl)
    · exact ⟨rfl, ⟨by decide, by decide, by decide⟩, by decide⟩
    · exact ⟨rfl, ⟨by decide, by decide, by decide⟩, by decide⟩
  have hfits : ∀ text, TextFits (di (aetBoth ||| sizeLimit 8)) text := fun _ => le_refl 4
  have hsound : Sound dhcpList ([0x31] ++ atSeparator :: ([0x30] ++ [atCr, atLf, 0]))
      [u32Bytes 1, u32Bytes 0] [0] :=
    .cons (hform 0x31 (.inl rfl)) (hfits _) ParaType.noConfusion
      (.last (hform 0x30 (.inr rfl)) (hfits _) ParaType.noConfusion rfl (by decide))
  have hline : InLine [0] (bytesOf "1,0" ++ [atCr, atLf, 0]) :=
    InLine.prepend (by decide) (.cr atLf)
  exact (by_position_iff (bothEnds_replicate ⟨by decide, by decide⟩ 2) hline).mpr
    fun _ => ⟨_, _, hsound⟩

/-- The descriptors of `set_mac_handler`. -/
def macList : List Descriptor := List.replicate 6 (hex 1 (aetBoth ||| sizeLimit 1))

set_option maxRecDepth 8000 in
/-- The bytes of an address, joined by separators, are refused: the second one has lost its first
digit. -/
theorem address_not_by_position :
    ¬∀ (d : Descriptor) (list : List Descriptor) (x : UInt8) (behind para : List UInt8),
      (∀ d' ∈ d :: list, BothEnds d'.option) → InLine (x :: behind) para →
        ByPosition (d :: list) para := by
  intro h
  have hform : ∀ text : List UInt8, (text.length = 2 ∧ ∀ b ∈ text, isHex b = true) →
      Form (hex 1 (aetBoth ||| sizeLimit 1)) text (hexBytes text) := by
    rintro text ⟨hlen, hhex⟩
    have hlimit : sizeLimit (hex 1 (aetBoth ||| sizeLimit 1)).option = 1 := by decide
    refine .inl ⟨?_, List.length_pos_iff.mp (by omega), by omega, ?_, hhex⟩
    · rw [hlimit, hlen]
      exact (List.append_nil _).symm
    · rw [hlimit, hlen]
  have hlisted : Listed macList (bytesOf "02" ++ atSeparator :: (bytesOf "4D" ++ atSeparator ::
      (bytesOf "53" ++ atSeparator :: (bytesOf "4D" ++ atSeparator :: (bytesOf "00" ++ atSeparator ::
        (bytesOf "01" ++ [atCr, atLf, 0])))))) [[0x02], [0x4d], [0x53], [0x4d], [0x00], [0x01]]
          [0] :=
    .cons (hform _ (by decide)) (.cons (hform _ (by decide))
      (.cons (hform _ (by decide)) (.cons (hform _ (by decide))
        (.cons (hform _ (by decide))
          (.last (hform _ (by decide)) rfl (by decide))))))
  have hline : InLine [0] (bytesOf "02,4D,53,4D,00,01" ++ [atCr, atLf, 0]) :=
    InLine.prepend (by decide) (.cr atLf)
  have hboth : ∀ d' ∈ macList, BothEnds d'.option :=
    bothEnds_replicate ⟨by decide, by decide⟩ 6
  have hpos : ByPosition macList (bytesOf "02,4D,53,4D,00,01" ++ [atCr, atLf, 0]) :=
    h _ _ 0 [] _ hboth hline
  exact absurd (hpos.stores _ _ hlisted).1 (by decide)

end Positions
end AtCmd
end XR806

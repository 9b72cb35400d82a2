import Mathlib.Data.FinEnum
import XR806.AtCmd.Parameter
import XR806.Scanner

/-!
# XR806.AtCmd.Fields

What the getters of the parameters take. Each loop is a scanner that stops at an end, and the text
before the end is the field of the parameter. `takes_iff`: a getter succeeds exactly when the field
is one of its type and its end is one of the descriptor.
-/

namespace XR806
namespace AtCmd

/-! ## The loops as scanners -/

/-- What an end leaves: the pointer, the flag of the line, and the end type. -/
structure Stop where
  para : List UInt8
  overFlag : Bool
  endType : Nat

/-- The three ends of all parameters; a colon, where a loop takes it for the end of the line, is
like `<LF>`. -/
def stopAt (b : UInt8) (para : List UInt8) : Stop :=
  if b = atSeparator then { para, overFlag := false, endType := aetPara }
  else if b = atCr then
    { para := if para.head? = some atLf then para.tail else para, overFlag := true,
      endType := aetLine }
  else { para, overFlag := true, endType := aetLine }

/-- What `strbuf` holds, and the digits in `hexbuf` or `decbuf`. -/
abbrev Buffers := List UInt8 × List UInt8

/-- How a loop that has come to an end leaves it. -/
def Scan.found (s : Scan) : Option (Stop × Buffers) :=
  if s.endType = 0 ∨ s.error = true then none
  else some (⟨s.para, s.overFlag, s.endType⟩, s.out, s.digits)

abbrev Loop := Scanner UInt8 Buffers Stop

/-- A loop that stores the bytes that are `ok`, and leaves out those that it skips. -/
def charScanner (limit : Nat) (colon : Bool) (skip ok : UInt8 → Bool) : Loop where
  room s := s.1.length < limit
  stop b := isEnd b || (colon && b = atColon)
  finish := stopAt
  step s b := if skip b then some s else if ok b then some (s.1 ++ [b], s.2) else none

def textScanner (limit : Nat) : Loop := charScanner limit false (· = atQuo) fun _ => true
def diScanner : Loop := charScanner intLimit true (fun _ => false) isDec
def hiScanner : Loop := charScanner intLimit false (· = atQuo) isHex

/-- The pointer stays at a colon. -/
def hexStopAt (b : UInt8) (para : List UInt8) : Stop :=
  if b = atColon then { para := b :: para, overFlag := false, endType := aetPara }
  else stopAt b para

def hexScanner (limit : Nat) : Loop where
  room s := s.1.length < limit
  stop b := isEnd b || b = atColon
  finish := hexStopAt
  step s b :=
    if b = atQuo then some s
    else if s.2.length < 2 then if isHex b then some (s.1, s.2 ++ [b]) else none
    else if s.1.length + 1 < limit ∧ isHex b then some (s.1 ++ [hexByte s.2], [b])
    else none

def ipScanner : Loop where
  room s := s.1.length < ipLimit
  stop := isEnd
  finish := stopAt
  step s b :=
    if b = atQuo then some s
    else if b = atDot then (ipNum s.2).map fun num => (s.1 ++ [num], [])
    else if isDec b ∧ s.2.length < 3 then some (s.1, s.2 ++ [b])
    else none

section
variable {limit : Nat} {b : UInt8} {para out digits : List UInt8}

theorem isEnd_cases (hb : isEnd b = true) : b = atSeparator ∨ b = atCr ∨ b = atLf :=
  of_decide_eq_true hb

theorem isEnd_colon : isEnd atColon = false := by decide

theorem stopAt_endType (b : UInt8) (para : List UInt8) :
    (stopAt b para).endType = aetPara ∨ (stopAt b para).endType = aetLine := by
  unfold stopAt
  split_ifs <;> simp

theorem aetPara_ne_zero : aetPara ≠ 0 := by decide

theorem aetLine_ne_zero : aetLine ≠ 0 := by decide

theorem stopAt_endType_ne : (stopAt b para).endType ≠ 0 := by
  rcases stopAt_endType b para with h | h <;> rw [h]
  · exact aetPara_ne_zero
  · exact aetLine_ne_zero

theorem paraEnd_of_isEnd (hb : isEnd b = true) (para : List UInt8) :
    ∃ log, paraEnd b para = some ⟨(stopAt b para).para, (stopAt b para).overFlag,
      (stopAt b para).endType, log⟩ := by
  rcases isEnd_cases hb with rfl | rfl | rfl
  · exact ⟨[], rfl⟩
  · exact ⟨[.read para], rfl⟩
  · exact ⟨[], rfl⟩

@[simp] theorem found_after (log : List Access) (s : Scan) : (s.after log).found = s.found := rfl

@[simp] theorem found_stop (log : List Access) : (Scan.stop para out digits log).found = none := rfl

@[simp] theorem found_fail : (Scan.fail para out digits).found = none := rfl

theorem found_ite {c : Prop} [Decidable c] (s t : Scan) :
    (if c then s else t).found = if c then s.found else t.found :=
  apply_ite Scan.found c s t

theorem bind_ite {α β : Type} {c : Prop} [Decidable c] (o p : Option α) (f : α → Option β) :
    (if c then o else p).bind f = if c then o.bind f else p.bind f :=
  apply_ite (Option.bind · f) c o p

@[simp] theorem found_scanNil : (scanNil limit out digits).found = none := rfl

theorem found_ended {e : End} (he : e.endType ≠ 0) :
    (Scan.ended e out digits).found = some (⟨e.para, e.overFlag, e.endType⟩, out, digits) :=
  if_neg (by simp [Scan.ended, he])

theorem found_scanByte (other : Scan) : (scanByte limit b para out digits other).found =
    if out.length < limit then
      if isEnd b then some (stopAt b para, out, digits) else other.found
    else none := by
  unfold scanByte
  split
  · rw [found_after]
    cases hb : isEnd b with
    | true =>
      obtain ⟨log, he⟩ := paraEnd_of_isEnd hb para
      rw [he, if_pos rfl]
      exact found_ended stopAt_endType_ne
    | false =>
      rw [paraEnd_of_not_isEnd hb, if_neg Bool.false_ne_true]
  · rfl

theorem charScanner_cons {colon : Bool} {skip ok : UInt8 → Bool} :
    (charScanner limit colon skip ok).scan (b :: para) (out, digits) =
      if out.length < limit then
        if isEnd b || (colon && b = atColon) then some (stopAt b para, out, digits)
        else if skip b then (charScanner limit colon skip ok).scan para (out, digits)
        else if ok b then (charScanner limit colon skip ok).scan para (out ++ [b], digits)
        else none
      else none := by
  rw [Scanner.scan]
  simp only [charScanner, decide_eq_true_eq]
  split_ifs <;> rfl

theorem textLoop_found_eq (limit : Nat) (para out : List UInt8) :
    (textLoop limit para out).found = (textScanner limit).scan para (out, []) := by
  induction para generalizing out with
  | nil => rfl
  | cons b para ih =>
    rw [textLoop, found_scanByte, textScanner, charScanner_cons]
    simp only [Bool.false_and, Bool.or_false, decide_eq_true_eq, if_true, found_ite, found_after,
      ih, textScanner]

theorem diLoop_found_eq (para out : List UInt8) :
    (diLoop para out).found = diScanner.scan para (out, []) := by
  induction para generalizing out with
  | nil => rfl
  | cons b para ih =>
    rw [diLoop, found_scanByte, diScanner, charScanner_cons]
    by_cases hc : b = atColon
    · subst hc
      rw [if_pos rfl, found_ended aetLine_ne_zero]
      rfl
    · simp only [hc, decide_false, Bool.and_false, Bool.or_false, Bool.false_eq_true, if_false,
        found_ite, found_after, found_fail, ih, diScanner]

theorem hiLoop_found_eq (para out : List UInt8) :
    (hiLoop para out).found = hiScanner.scan para (out, []) := by
  induction para generalizing out with
  | nil => rfl
  | cons b para ih =>
    rw [hiLoop, found_scanByte, hiScanner, charScanner_cons]
    simp only [Bool.false_and, Bool.or_false, decide_eq_true_eq, found_ite, found_after,
      found_fail, ih, hiScanner]

theorem hexLoop_found_eq (limit : Nat) (para out hexbuf : List UInt8) :
    (hexLoop limit para out hexbuf).found = (hexScanner limit).scan para (out, hexbuf) := by
  induction para generalizing out hexbuf with
  | nil => rfl
  | cons b para ih =>
    rw [hexLoop, found_scanByte, Scanner.scan]
    simp only [hexScanner, decide_eq_true_eq]
    by_cases hc : b = atColon
    · subst hc
      rw [if_pos rfl, found_ended aetPara_ne_zero]
      simp [isEnd_colon, hexStopAt]
    · cases hb : isEnd b with
      | true => simp [hexStopAt, hc]
      | false =>
        simp only [hc, decide_false, Bool.or_false, Bool.false_eq_true, if_false, found_ite,
          found_after, found_fail, found_stop, ih, hexScanner, bind_ite, ite_and,
          Option.bind_some, Option.bind_none]

theorem ipLoop_found_eq (para out decbuf : List UInt8) :
    (ipLoop para out decbuf).found = ipScanner.scan para (out, decbuf) := by
  induction para generalizing out decbuf with
  | nil => rfl
  | cons b para ih =>
    rw [ipLoop, found_scanByte, Scanner.scan]
    simp only [ipScanner, decide_eq_true_eq]
    cases ipNum decbuf with
    | none =>
      simp only [found_ite, found_fail, ih, ipScanner, bind_ite, ite_and, Option.bind_some,
        Option.bind_none, Option.map_none]
    | some num =>
      simp only [found_ite, found_after, found_fail, ih, ipScanner, bind_ite, ite_and,
        Option.bind_some, Option.bind_none, Option.map_some]

end

/-! ## The fields of the types -/

/-- The values of the pairs of digits. -/
def hexBytes : List UInt8 → List UInt8
  | a :: b :: digits => hexByte [a, b] :: hexBytes digits
  | _ => []

/-- One number of an address. -/
def IsNum (text : List UInt8) (num : UInt8) : Prop :=
  (∀ b ∈ text, isDec b = true) ∧ ipNum text = some num

/-- A getter takes the text before the end as the value `v`. -/
def Takes (d : Descriptor) (text v : List UInt8) : Prop :=
  match d.pt with
  | .text => v = unquoted text ∧ v ≠ [] ∧ v.length < sizeLimit d.option
  | .hex =>
    (∀ b ∈ unquoted text, isHex b = true) ∧ (unquoted text).length % 2 = 0 ∧
      unquoted text ≠ [] ∧ v = hexBytes (unquoted text) ∧ v.length ≤ sizeLimit d.option
  | .di => v = text ∧ v ≠ [] ∧ v.length < intLimit ∧ ∀ b ∈ v, isDec b = true
  | .hi => v = unquoted text ∧ v ≠ [] ∧ v.length < intLimit ∧ ∀ b ∈ v, isHex b = true
  | .ip =>
    v.length = ipLimit ∧ ∃ texts, unquoted text = [atDot].intercalate texts ∧
      List.Forall₂ IsNum texts v

section
variable {limit : Nat} {u out digits : List UInt8}

section
variable {colon : Bool} {skip ok : UInt8 → Bool}

theorem charScanner_run_cons {b : UInt8} :
    (charScanner limit colon skip ok).run (b :: u) (out, digits) =
      if out.length < limit then
        if skip b then (charScanner limit colon skip ok).run u (out, digits)
        else if ok b then (charScanner limit colon skip ok).run u (out ++ [b], digits)
        else none
      else none := by
  rw [Scanner.run]
  simp only [charScanner, decide_eq_true_eq]
  split_ifs <;> rfl

/-- The field of a loop that only stores. -/
theorem charScanner_run :
    (charScanner limit colon skip ok).run u (out, digits) =
      if (∀ b ∈ u.filter (!skip ·), ok b = true) ∧ out.length + (u.filter (!skip ·)).length < limit
      then some (out ++ u.filter (!skip ·), digits) else none := by
  induction u generalizing out with
  | nil => simp [Scanner.run, charScanner]
  | cons b u ih =>
    rw [charScanner_run_cons]
    by_cases hl : out.length < limit
    · rw [if_pos hl]
      cases hs : skip b with
      | true => rw [if_pos rfl, ih, List.filter_cons_of_neg (by simp [hs])]
      | false =>
        rw [if_neg Bool.false_ne_true, List.filter_cons_of_pos (by simp [hs])]
        cases ho : ok b with
        | true =>
          rw [if_pos rfl, ih]
          simp [ho, Nat.add_assoc, Nat.add_comm 1]
        | false => simp [ho]
    · rw [if_neg hl, if_neg]
      rintro ⟨-, hlt⟩
      omega

end

theorem textScanner_run : (textScanner limit).run u (out, digits) =
    if out.length + (unquoted u).length < limit then some (out ++ unquoted u, digits) else none := by
  rw [textScanner, charScanner_run]
  simp [unquoted]

theorem diScanner_run : diScanner.run u (out, digits) =
    if (∀ b ∈ u, isDec b = true) ∧ out.length + u.length < intLimit then some (out ++ u, digits)
    else none := by
  rw [diScanner, charScanner_run]
  simp

theorem hiScanner_run : hiScanner.run u (out, digits) =
    if (∀ b ∈ unquoted u, isHex b = true) ∧ out.length + (unquoted u).length < intLimit then
      some (out ++ unquoted u, digits)
    else none := by
  rw [hiScanner, charScanner_run]
  simp [unquoted]

/-! ### Hexadecimal data -/

theorem hexScanner_unquoted {s : Buffers} :
    (hexScanner limit).run (unquoted u) s = (hexScanner limit).run u s := by
  refine Scanner.run_filter _ fun s b hb => ?_
  have hq : b = atQuo := by simpa using hb
  exact if_pos hq

theorem quo_not_isHex : isHex atQuo = false := by decide

theorem ne_quo_of_isHex {b : UInt8} (hb : isHex b = true) : b ≠ atQuo := by
  rintro rfl
  exact Bool.false_ne_true (quo_not_isHex.symm.trans hb)

section
variable {b : UInt8} {hexbuf : List UInt8}

theorem hexScanner_digit (hl : out.length < limit) (hb : isHex b = true) (hc : hexbuf.length < 2) :
    (hexScanner limit).run (b :: u) (out, hexbuf) =
      (hexScanner limit).run u (out, hexbuf ++ [b]) := by
  refine Scanner.run_cons_of_step _ ?_ (decide_eq_true hl)
  dsimp only [hexScanner]
  rw [if_neg (ne_quo_of_isHex hb), if_pos hc, if_pos hb]

theorem hexScanner_flush (hl : out.length + 1 < limit) (hb : isHex b = true)
    (hc : ¬hexbuf.length < 2) : (hexScanner limit).run (b :: u) (out, hexbuf) =
      (hexScanner limit).run u (out ++ [hexByte hexbuf], [b]) := by
  refine Scanner.run_cons_of_step _ ?_ (decide_eq_true (Nat.lt_of_succ_lt hl))
  dsimp only [hexScanner]
  rw [if_neg (ne_quo_of_isHex hb), if_neg hc, if_pos ⟨hl, hb⟩]

theorem isHex_of_hexScanner (hq : b ≠ atQuo)
    (h : (hexScanner limit).run (b :: u) (out, hexbuf) ≠ none) : isHex b = true := by
  cases hb : isHex b with
  | true => rfl
  | false => simp [Scanner.run, hexScanner, hb, hq] at h

end

theorem length_hexBytes : ∀ w : List UInt8, (hexBytes w).length = w.length / 2
  | [] => by simp [hexBytes]
  | [_] => by simp [hexBytes]
  | a :: b :: w => by
    simp only [hexBytes, List.length_cons, length_hexBytes w]
    omega

/-- Digits that fill the room: the last pair is still in `hexbuf` at the end. -/
theorem hexScanner_run (w : List UInt8) (hw : ∀ b ∈ w, isHex b = true) :
    ∀ out hexbuf : List UInt8, hexbuf.length ≤ 2 → (hexbuf ++ w).length % 2 = 0 →
      hexbuf ++ w ≠ [] → out.length + (hexBytes (hexbuf ++ w)).length ≤ limit →
        ∃ out' hexbuf', (hexScanner limit).run w (out, hexbuf) = some (out', hexbuf') ∧
          hexbuf'.length = 2 ∧ out' ++ [hexByte hexbuf'] = out ++ hexBytes (hexbuf ++ w) := by
  induction w with
  | nil =>
    intro out hexbuf hc heven hne hlen
    rw [List.append_nil] at heven hne hlen
    have hpos := List.length_pos_iff.mpr hne
    rw [length_hexBytes] at hlen
    obtain ⟨a, b, rfl⟩ := List.length_eq_two.mp (show hexbuf.length = 2 by omega)
    have hl : out.length < limit := by simpa using hlen
    exact ⟨out, [a, b], if_pos (decide_eq_true hl), rfl, rfl⟩
  | cons b w ih =>
    obtain ⟨hb, hw⟩ := List.forall_mem_cons.mp hw
    intro out hexbuf hc heven _ hlen
    rw [length_hexBytes] at hlen
    simp only [List.length_append, List.length_cons] at heven hlen
    by_cases hbuf : hexbuf.length < 2
    · rw [hexScanner_digit (by omega) hb hbuf]
      have happ : hexbuf ++ b :: w = hexbuf ++ [b] ++ w := by simp
      rw [happ]
      refine ih hw out (hexbuf ++ [b]) (by simpa using hbuf) ?_ (by simp) ?_
      · simp only [List.length_append, List.length_cons, List.length_nil]
        omega
      · rw [length_hexBytes]
        simp only [List.length_append, List.length_cons, List.length_nil]
        omega
    · obtain ⟨x, y, rfl⟩ := List.length_eq_two.mp (show hexbuf.length = 2 by omega)
      simp only [List.length_cons, List.length_nil] at heven hlen
      rw [hexScanner_flush (by omega) hb hbuf]
      obtain ⟨out', hexbuf', hrun, hlen', heq⟩ := ih hw (out ++ [hexByte [x, y]]) [b] (by simp)
        (by simp only [List.length_append, List.length_cons, List.length_nil]; omega) (by simp)
        (by
          rw [length_hexBytes]
          simp only [List.length_append, List.length_cons, List.length_nil]
          omega)
      exact ⟨out', hexbuf', hrun, hlen', by rw [heq, List.append_assoc]; rfl⟩

theorem hexScanner_found (w : List UInt8) (hw : ∀ b ∈ w, b ≠ atQuo) :
    ∀ out hexbuf out' hexbuf' : List UInt8, hexbuf.length ≤ 2 → hexbuf'.length = 2 →
      (hexScanner limit).run w (out, hexbuf) = some (out', hexbuf') →
        (∀ b ∈ w, isHex b = true) ∧ (hexbuf ++ w).length % 2 = 0 ∧ hexbuf ++ w ≠ [] ∧
          out' ++ [hexByte hexbuf'] = out ++ hexBytes (hexbuf ++ w) ∧ out'.length < limit := by
  induction w with
  | nil =>
    intro out hexbuf out' hexbuf' _ hlen h
    rw [Scanner.run] at h
    split_ifs at h with hr
    cases h
    obtain ⟨a, b, rfl⟩ := List.length_eq_two.mp hlen
    exact ⟨List.forall_mem_nil _, by simp, List.cons_ne_nil a _, rfl, of_decide_eq_true hr⟩
  | cons b w ih =>
    obtain ⟨hq, hw⟩ := List.forall_mem_cons.mp hw
    intro out hexbuf out' hexbuf' hc hlen h
    have hb := isHex_of_hexScanner hq (by rw [h]; exact Option.some_ne_none _)
    have hroom : out.length < limit := by
      by_contra hl
      simp [Scanner.run, hexScanner, hl] at h
    by_cases hbuf : hexbuf.length < 2
    · rw [hexScanner_digit hroom hb hbuf] at h
      obtain ⟨hex, heven, hne, heq, hl⟩ :=
        ih hw out (hexbuf ++ [b]) out' hexbuf' (by simpa using hbuf) hlen h
      have happ : hexbuf ++ b :: w = hexbuf ++ [b] ++ w := by simp
      rw [happ]
      exact ⟨List.forall_mem_cons.mpr ⟨hb, hex⟩, heven, hne, heq, hl⟩
    · have hroom' : out.length + 1 < limit := by
        by_contra hl
        have hstep : (hexScanner limit).step (out, hexbuf) b = none := by
          dsimp only [hexScanner]
          rw [if_neg hq, if_neg hbuf, if_neg fun hlt => hl hlt.1]
        rw [Scanner.run, hstep, Option.bind_none, ite_self] at h
        exact Option.some_ne_none _ h.symm
      rw [hexScanner_flush hroom' hb hbuf] at h
      obtain ⟨x, y, rfl⟩ := List.length_eq_two.mp (show hexbuf.length = 2 by omega)
      obtain ⟨hex, heven, -, heq, hl⟩ :=
        ih hw (out ++ [hexByte [x, y]]) [b] out' hexbuf' (by simp) hlen h
      refine ⟨List.forall_mem_cons.mpr ⟨hb, hex⟩, ?_, by simp, ?_, hl⟩
      · simp only [List.length_append, List.length_cons, List.length_nil] at heven ⊢
        omega
      · rw [heq, List.append_assoc]
        rfl

/-! ### Addresses -/

theorem ipScanner_unquoted {s : Buffers} : ipScanner.run (unquoted u) s = ipScanner.run u s := by
  refine Scanner.run_filter _ fun s b hb => ?_
  have hq : b = atQuo := by simpa using hb
  exact if_pos hq

theorem intercalate_cons {text : List UInt8} {texts : List (List UInt8)} (h : texts ≠ []) :
    [atDot].intercalate (text :: texts) = text ++ atDot :: [atDot].intercalate texts := by
  rw [List.intercalate_cons_of_ne_nil h, List.append_assoc]
  rfl

section
variable {b num : UInt8} {w decbuf : List UInt8}

theorem ne_of_isDec (hb : isDec b = true) : b ≠ atQuo ∧ b ≠ atDot := by
  constructor
  · rintro rfl
    exact absurd hb (by decide)
  · rintro rfl
    exact absurd hb (by decide)

theorem ipScanner_digit (hl : out.length < ipLimit) (hb : isDec b = true)
    (hc : decbuf.length < 3) :
    ipScanner.run (b :: w) (out, decbuf) = ipScanner.run w (out, decbuf ++ [b]) := by
  refine Scanner.run_cons_of_step _ ?_ (decide_eq_true hl)
  dsimp only [ipScanner]
  rw [if_neg (ne_of_isDec hb).1, if_neg (ne_of_isDec hb).2, if_pos ⟨hb, hc⟩]

theorem ipScanner_dot (hl : out.length < ipLimit) (hn : ipNum decbuf = some num) :
    ipScanner.run (atDot :: w) (out, decbuf) = ipScanner.run w (out ++ [num], []) := by
  refine Scanner.run_cons_of_step _ ?_ (decide_eq_true hl)
  dsimp only [ipScanner]
  rw [if_neg (by decide), if_pos rfl, hn, Option.map_some]

theorem ipScanner_digits (hl : out.length < ipLimit) (text : List UInt8)
    (ht : ∀ b ∈ text, isDec b = true) : ∀ decbuf : List UInt8, (decbuf ++ text).length ≤ 3 →
      ipScanner.run (text ++ w) (out, decbuf) = ipScanner.run w (out, decbuf ++ text) := by
  induction text with
  | nil => exact fun decbuf _ => by rw [List.append_nil, List.nil_append]
  | cons b text ih =>
    obtain ⟨hb, ht⟩ := List.forall_mem_cons.mp ht
    intro decbuf hc
    have hlen : decbuf.length < 3 := by
      simp only [List.length_append, List.length_cons] at hc
      omega
    rw [List.cons_append, ipScanner_digit hl hb hlen, ih ht _ (by simpa using hc),
      List.append_assoc]
    rfl

theorem length_of_ipNum {text : List UInt8} (h : ipNum text = some num) : text.length ≤ 3 := by
  unfold ipNum at h
  split_ifs at h with hc
  exact hc.2.1

/-- Four numbers: the last one is still in `decbuf` at the end. -/
theorem ipScanner_run {texts : List (List UInt8)} {nums : List UInt8}
    (h : List.Forall₂ IsNum texts nums) (hne : texts ≠ []) :
    ∀ out : List UInt8, out.length + nums.length ≤ ipLimit →
      ∃ out' decbuf num, ipScanner.run ([atDot].intercalate texts) (out, []) = some (out', decbuf) ∧
        ipNum decbuf = some num ∧ out' ++ [num] = out ++ nums := by
  induction h with
  | nil => exact absurd rfl hne
  | @cons text num texts nums hnum hrest ih =>
    intro out hlen
    have hlen' : out.length + (nums.length + 1) ≤ ipLimit := hlen
    have hl : out.length < ipLimit := by omega
    cases hrest with
    | nil =>
      refine ⟨out, text, num, ?_, hnum.2, rfl⟩
      have hrun := ipScanner_digits (w := []) hl text hnum.1 [] (length_of_ipNum hnum.2)
      rw [List.append_nil] at hrun
      rw [List.intercalate_singleton, hrun]
      exact if_pos (decide_eq_true hl)
    | @cons text' num' texts nums hnum' hrest =>
      obtain ⟨out', decbuf, n, hrun, hn, heq⟩ := ih (List.cons_ne_nil _ _) (out ++ [num])
        (by rw [List.length_append, List.length_singleton]; omega)
      refine ⟨out', decbuf, n, ?_, hn, ?_⟩
      · rw [intercalate_cons (List.cons_ne_nil _ _),
          ipScanner_digits hl text hnum.1 [] (length_of_ipNum hnum.2),
          List.nil_append, ipScanner_dot hl hnum.2]
        exact hrun
      · rw [heq, List.append_assoc]
        rfl

theorem ipScanner_found (w : List UInt8) (hw : ∀ b ∈ w, b ≠ atQuo) :
    ∀ out decbuf out' decbuf' : List UInt8, (∀ b ∈ decbuf, isDec b = true) →
      ipScanner.run w (out, decbuf) = some (out', decbuf') →
        ∃ texts nums, decbuf ++ w = [atDot].intercalate (texts ++ [decbuf']) ∧
          List.Forall₂ IsNum texts nums ∧ out' = out ++ nums ∧ ∀ b ∈ decbuf', isDec b = true := by
  induction w with
  | nil =>
    intro out decbuf out' decbuf' hdec h
    rw [Scanner.run] at h
    split_ifs at h
    cases h
    exact ⟨[], [], by simp, .nil, by simp, hdec⟩
  | cons b w ih =>
    obtain ⟨hq, hw⟩ := List.forall_mem_cons.mp hw
    intro out decbuf out' decbuf' hdec h
    rw [Scanner.run] at h
    split_ifs at h
    obtain ⟨s, hs, hrun⟩ := Option.bind_eq_some_iff.mp h
    dsimp only [ipScanner] at hs
    rw [if_neg hq] at hs
    by_cases hdot : b = atDot
    · rw [if_pos hdot] at hs
      obtain ⟨num, hn, rfl⟩ := Option.map_eq_some_iff.mp hs
      obtain ⟨texts, nums, heq, hall, rfl, hdec'⟩ :=
        ih hw _ _ _ _ (List.forall_mem_nil _) hrun
      refine ⟨decbuf :: texts, num :: nums, ?_, .cons ⟨hdec, hn⟩ hall, by simp, hdec'⟩
      rw [List.cons_append, intercalate_cons (by simp), ← heq, hdot]
      rfl
    · rw [if_neg hdot] at hs
      split_ifs at hs with hd
      cases hs
      obtain ⟨texts, nums, heq, hall, rfl, hdec'⟩ := ih hw _ _ _ _
        (List.forall_mem_append.mpr ⟨hdec, by simpa using hd.1⟩) hrun
      exact ⟨texts, nums, by simpa using heq, hall, rfl, hdec'⟩

end

end

/-! ## What a getter takes -/

/-- The getter has no error. -/
def Got.Is (g : Got) (v para : List UInt8) (overFlag : Bool) : Prop :=
  g.error = false ∧ g.value = v ∧ g.para = para ∧ g.overFlag = overFlag

/-- The bytes that a getter stops at. -/
def stops (pt : ParaType) (b : UInt8) : Bool :=
  isEnd b || ((pt = .di ∨ pt = .hex) && b = atColon)

/-- What the end of a parameter leaves: behind a hex parameter one more byte is skipped. -/
def leaves (pt : ParaType) (b : UInt8) (rest : List UInt8) : Stop :=
  if pt = .hex then { hexStopAt b rest with para := (hexStopAt b rest).para.tail }
  else stopAt b rest

section
variable {s : Scan} {v para para' : List UInt8} {overFlag : Bool} {opt size : Nat}

theorem found_some_iff {st : Stop} {buffers : Buffers} : s.found = some (st, buffers) ↔
    s.endType ≠ 0 ∧ s.error = false ∧ st = ⟨s.para, s.overFlag, s.endType⟩ ∧
      buffers = (s.out, s.digits) := by
  unfold Scan.found
  split_ifs with h
  · simp only [false_iff]
    rintro ⟨he, herr, -⟩
    simp [he, herr] at h
  · simp only [not_or, Bool.not_eq_true] at h
    simp only [Option.some.injEq, Prod.mk.injEq, h, ne_eq, not_false_eq_true, true_and]
    exact and_congr eq_comm eq_comm

/-- A loop has come to an end of its descriptor exactly when there is a field that it runs over. -/
theorem loop_iff {m : Loop} (hm : s.found = m.scan para ([], []))
    {Q : List UInt8 → List UInt8 → List UInt8 → Bool → Prop} :
    (s.endType &&& opt ≠ 0 ∧ s.error = false ∧ Q s.out s.digits s.para s.overFlag) ↔
      ∃ text b rest, para = text ++ b :: rest ∧ (∀ x ∈ text, m.stop x = false) ∧
        m.stop b = true ∧ (m.finish b rest).endType &&& opt ≠ 0 ∧ ∃ out digits,
          m.run text ([], []) = some (out, digits) ∧
            Q out digits (m.finish b rest).para (m.finish b rest).overFlag := by
  constructor
  · rintro ⟨he, herr, hQ⟩
    have hfound := found_some_iff.mpr ⟨endType_ne_zero he, herr, rfl, rfl⟩
    rw [hm] at hfound
    obtain ⟨text, b, rest, hpara, htext, hb, hrun, hfin⟩ := m.scan_eq_some_iff.mp hfound
    refine ⟨text, b, rest, hpara, htext, hb, ?_, s.out, s.digits, hrun, ?_⟩
    · rw [← hfin]
      exact he
    · rw [← hfin]
      exact hQ
  · rintro ⟨text, b, rest, hpara, htext, hb, he, out, digits, hrun, hQ⟩
    have hscan := m.scan_eq_some_iff.mpr ⟨text, b, rest, hpara, htext, hb, hrun, rfl⟩
    rw [← hm] at hscan
    obtain ⟨-, herr, hfin, hbuf⟩ := found_some_iff.mp hscan
    cases hbuf
    rw [hfin] at he hQ
    exact ⟨he, herr, hQ⟩

theorem got_is {ok : Bool} {log : List Access} : (s.got para ok log).Is v para' overFlag ↔
    ok = true ∧ s.out = v ∧ para = para' ∧ s.overFlag = overFlag := by
  simp [Got.Is, Scan.got]

theorem textLoop_error (limit : Nat) (para out : List UInt8) :
    (textLoop limit para out).error = false := by
  induction para generalizing out with
  | nil => rfl
  | cons b para ih =>
    rw [textLoop, scanByte]
    split
    · split
      · rfl
      · split
        · exact ih out
        · exact ih _
    · rfl

/-- A parameter with its end, as its getter takes it. -/
def Field (d : Descriptor) (para v para' : List UInt8) (overFlag : Bool) : Prop :=
  ∃ text b rest, para = text ++ b :: rest ∧ (∀ x ∈ text, stops d.pt x = false) ∧
    stops d.pt b = true ∧ (leaves d.pt b rest).endType &&& d.option ≠ 0 ∧ Takes d text v ∧
      (leaves d.pt b rest).para = para' ∧ (leaves d.pt b rest).overFlag = overFlag

/-- `R` is what the getter asks of the buffers behind its loop, `move` what it does to the
pointer. -/
theorem field_iff (d : Descriptor) (move : List UInt8 → List UInt8)
    (R : List UInt8 → List UInt8 → Prop) {m : Loop} (hm : s.found = m.scan para ([], []))
    (hstop : ∀ b, m.stop b = stops d.pt b)
    (hfin : ∀ b rest, leaves d.pt b rest =
      { m.finish b rest with para := move (m.finish b rest).para })
    (hrun : ∀ text, (∃ out digits, m.run text ([], []) = some (out, digits) ∧ R out digits) ↔
      Takes d text v) :
    (s.endType &&& d.option ≠ 0 ∧ s.error = false ∧ R s.out s.digits ∧ move s.para = para' ∧
      s.overFlag = overFlag) ↔ Field d para v para' overFlag := by
  rw [loop_iff hm (Q := fun out digits p o => R out digits ∧ move p = para' ∧ o = overFlag)]
  simp only [Field, hstop, hfin, ← hrun]
  constructor
  · rintro ⟨text, b, rest, hpara, htext, hb, he, out, digits, hr, hR, hp, ho⟩
    exact ⟨text, b, rest, hpara, htext, hb, he, ⟨out, digits, hr, hR⟩, hp, ho⟩
  · rintro ⟨text, b, rest, hpara, htext, hb, he, ⟨out, digits, hr, hR⟩, hp, ho⟩
    exact ⟨text, b, rest, hpara, htext, hb, he, out, digits, hr, hR, hp, ho⟩

theorem getTextPara_is : (getTextPara size opt para).Is v para' overFlag ↔
    Field ⟨.text, size, opt⟩ para v para' overFlag := by
  rw [← field_iff ⟨.text, size, opt⟩ id
    (fun out _ => (0 < out.length ∧ out.length < sizeLimit opt) ∧ out = v)
    (textLoop_found_eq (sizeLimit opt) para []) (fun b => by simp [textScanner, charScanner, stops])
    (fun b rest => rfl)]
  · simp [getTextPara, got_is, textLoop_error, and_assoc]
  · intro text
    rw [textScanner_run]
    simp only [Takes, List.length_nil, Nat.zero_add, List.nil_append]
    constructor
    · rintro ⟨out, digits, hrun, ⟨hpos, hlt⟩, rfl⟩
      split_ifs at hrun
      cases hrun
      exact ⟨rfl, List.length_pos_iff.mp hpos, hlt⟩
    · rintro ⟨rfl, hne, hlt⟩
      exact ⟨_, [], if_pos hlt, ⟨List.length_pos_iff.mpr hne, hlt⟩, rfl⟩

theorem getDiPara_is : (getDiPara size opt para).Is v para' overFlag ↔
    Field ⟨.di, size, opt⟩ para v para' overFlag := by
  rw [← field_iff ⟨.di, size, opt⟩ id
    (fun out _ => (0 < out.length ∧ out.length < intLimit) ∧ out = v)
    (diLoop_found_eq para []) (fun b => by simp [diScanner, charScanner, stops])
    (fun b rest => rfl)]
  · simp [getDiPara, got_is, and_assoc]
  · intro text
    rw [diScanner_run]
    simp only [Takes, List.length_nil, Nat.zero_add, List.nil_append]
    constructor
    · rintro ⟨out, digits, hrun, ⟨hpos, hlt⟩, rfl⟩
      split_ifs at hrun with hdec
      cases hrun
      exact ⟨rfl, List.length_pos_iff.mp hpos, hlt, hdec.1⟩
    · rintro ⟨rfl, hne, hlt, hdec⟩
      exact ⟨_, [], if_pos ⟨hdec, hlt⟩, ⟨List.length_pos_iff.mpr hne, hlt⟩, rfl⟩

theorem getHiPara_is : (getHiPara size opt para).Is v para' overFlag ↔
    Field ⟨.hi, size, opt⟩ para v para' overFlag := by
  rw [← field_iff ⟨.hi, size, opt⟩ id
    (fun out _ => (0 < out.length ∧ out.length < intLimit) ∧ out = v)
    (hiLoop_found_eq para []) (fun b => by simp [hiScanner, charScanner, stops])
    (fun b rest => rfl)]
  · simp [getHiPara, got_is, and_assoc]
  · intro text
    rw [hiScanner_run]
    simp only [Takes, List.length_nil, Nat.zero_add, List.nil_append]
    constructor
    · rintro ⟨out, digits, hrun, ⟨hpos, hlt⟩, rfl⟩
      split_ifs at hrun with hhex
      cases hrun
      exact ⟨rfl, List.length_pos_iff.mp hpos, hlt, hhex.1⟩
    · rintro ⟨rfl, hne, hlt, hhex⟩
      exact ⟨_, [], if_pos ⟨hhex, hlt⟩, ⟨List.length_pos_iff.mpr hne, hlt⟩, rfl⟩

theorem unquoted_ne_quo (text : List UInt8) : ∀ b ∈ unquoted text, b ≠ atQuo := fun b hb => by
  simpa [unquoted] using (List.mem_filter.mp hb).2

theorem hexScanner_takes {text : List UInt8} :
    (∃ out digits, (hexScanner (sizeLimit opt)).run text ([], []) = some (out, digits) ∧
      digits.length = 2 ∧ out ++ [hexByte digits] = v) ↔ Takes ⟨.hex, size, opt⟩ text v := by
  rw [← hexScanner_unquoted]
  constructor
  · rintro ⟨out, digits, hrun, hlen, rfl⟩
    obtain ⟨hhex, heven, hne, heq, hlt⟩ :=
      hexScanner_found _ (unquoted_ne_quo text) [] [] out digits (by simp) hlen hrun
    exact ⟨hhex, heven, hne, heq, by simpa using hlt⟩
  · rintro ⟨hhex, heven, hne, rfl, hlen⟩
    obtain ⟨out, digits, hrun, hdig, heq⟩ := hexScanner_run (unquoted text) hhex [] [] (by simp)
      heven hne (by simpa using hlen)
    exact ⟨out, digits, hrun, hdig, heq⟩

theorem getHexPara_is : (getHexPara size opt para).Is v para' overFlag ↔
    Field ⟨.hex, size, opt⟩ para v para' overFlag := by
  rw [← field_iff ⟨.hex, size, opt⟩ List.tail
    (fun out digits => digits.length = 2 ∧ out ++ [hexByte digits] = v)
    (hexLoop_found_eq (sizeLimit opt) para [] []) (fun b => by simp [hexScanner, stops])
    (fun b rest => rfl) (fun text => hexScanner_takes)]
  rw [getHexPara]
  dsimp only
  split
  · rename_i h
    rw [got_is]
    simp [Scan.put, h]
  · rename_i h
    rw [got_is]
    constructor
    · rintro ⟨hf, -⟩
      exact absurd hf Bool.false_ne_true
    · rintro ⟨he, -, ⟨hlen, -⟩, -⟩
      exact absurd ⟨he, hlen⟩ h

theorem forall₂_concat {texts : List (List UInt8)} {nums : List UInt8} {text : List UInt8}
    {num : UInt8} (h : List.Forall₂ IsNum texts nums) (hn : IsNum text num) :
    List.Forall₂ IsNum (texts ++ [text]) (nums ++ [num]) :=
  List.rel_append h (.cons hn .nil)

theorem ipScanner_takes {text : List UInt8} :
    (∃ out digits, ipScanner.run text ([], []) = some (out, digits) ∧
      ∃ num, ipNum digits = some num ∧ (out ++ [num]).length = ipLimit ∧ out ++ [num] = v) ↔
        Takes ⟨.ip, size, opt⟩ text v := by
  rw [← ipScanner_unquoted]
  constructor
  · rintro ⟨out, digits, hrun, num, hn, hlen, rfl⟩
    obtain ⟨texts, nums, heq, hall, rfl, hdec⟩ :=
      ipScanner_found _ (unquoted_ne_quo text) [] [] out digits (List.forall_mem_nil _) hrun
    exact ⟨hlen, texts ++ [digits], heq, forall₂_concat hall ⟨hdec, hn⟩⟩
  · rintro ⟨hlen, texts, heq, hall⟩
    have hne : texts ≠ [] := by
      rintro rfl
      cases hall
      exact absurd hlen (by decide)
    obtain ⟨out, digits, num, hrun, hn, hv⟩ := ipScanner_run hall hne [] (by simpa using hlen.le)
    rw [List.nil_append] at hv
    exact ⟨out, digits, by rw [heq, hrun], num, hn, by rw [hv]; exact hlen, hv⟩

theorem getIpPara_is : (getIpPara size opt para).Is v para' overFlag ↔
    Field ⟨.ip, size, opt⟩ para v para' overFlag := by
  rw [← field_iff ⟨.ip, size, opt⟩ id
    (fun out digits => ∃ num, ipNum digits = some num ∧ (out ++ [num]).length = ipLimit ∧
      out ++ [num] = v)
    (ipLoop_found_eq para [] []) (fun b => by simp [ipScanner, stops])
    (fun b rest => rfl) (fun text => ipScanner_takes)]
  rw [getIpPara]
  dsimp only
  split
  · rename_i h
    split
    · rename_i num hn
      rw [got_is]
      simp [Scan.put, h, hn, and_assoc]
    · rename_i hn
      simp [got_is, hn]
  · rename_i h
    rw [got_is]
    constructor
    · rintro ⟨hf, -⟩
      exact absurd hf Bool.false_ne_true
    · rintro ⟨he, -⟩
      exact absurd he h

end

/-- What the getter of a parameter takes, of any type and with any option. -/
theorem getPara_is_iff {d : Descriptor} {para v para' : List UInt8} {overFlag : Bool} :
    (getPara d para).Is v para' overFlag ↔ Field d para v para' overFlag := by
  obtain ⟨pt, size, option⟩ := d
  cases pt with
  | text => exact getTextPara_is
  | hex => exact getHexPara_is
  | di => exact getDiPara_is
  | hi => exact getHiPara_is
  | ip => exact getIpPara_is

theorem is_of_ok {g : Got} (h : g.error = false) : g.Is g.value g.para g.overFlag :=
  ⟨h, rfl, rfl, rfl⟩

end AtCmd
end XR806

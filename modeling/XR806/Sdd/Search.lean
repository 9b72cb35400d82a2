import XR806.Image.Fdcm

/-!
# XR806.Sdd.Search

`sdd_get_ie`: the search for an element of a section in the blob `sdd_request` has read.

* `sddGetIe`: the code. A read outside of the blob is `outside`; the loop over the sections may run
  for ever, so it takes the number of rounds it may do.
* `Readable`: what has to hold of the sections and elements the search comes to.
* `SddFile`: a well-formed blob, and `lookup`, what is to be found in it.

The loop over the elements compares a length counted from behind the first two bytes of the section
with a length that has these in it, and so looks at two bytes behind the section.
-/

namespace XR806
namespace Sdd

open Nor Image

def sddSectionHeaderEltId : Byte := 0xC1
def sddLastSectId : Byte := 0xFF

/-! ## The search -/

inductive Search where
  | ret (elt : Option Nat)
  | outside
  | running
  deriving DecidableEq

/-- `sec_length`, from `addr` on. -/
def readLength (data : List Byte) (addr : Nat) : Option Nat :=
  data[addr]?.bind fun lo => data[addr + 1]?.map fun hi => leNat [lo, hi]

/-- The loop over the elements; `none` is a read outside of the blob. -/
def eltLoop (data : List Byte) (ies : Int) (secLen secLength elt : Nat) : Option (Option Nat) :=
  if secLength < secLen then
    data[elt]?.bind fun id =>
      if id.toNat = ies then some (some elt)
      else data[elt + 1]?.bind fun length =>
        eltLoop data ies secLen (secLength + (2 + length.toNat)) (elt + 2 + length.toNat)
  else some none
termination_by secLen - secLength

/-- The section at `sec` has the id: its elements. -/
def secElts (data : List Byte) (ies : Int) (sec : Nat) : Option (Option Nat) :=
  data[sec + 1]?.bind fun ieLength =>
    (readLength data (sec + 6)).bind fun secLen =>
      eltLoop data ies secLen ieLength.toNat (sec + 2 + ieLength.toNat)

/-- The end of a round: the length of the section, or `NULL` before the last section. -/
def secNext (data : List Byte) (sec : Nat) : Option (Option Nat ⊕ Nat) :=
  (readLength data (sec + 6)).bind fun secLen =>
    data[sec + secLen + 2]?.map fun next => if next = sddLastSectId then .inl none else .inr secLen

/-- A round of the loop over the sections: what is returned, or the length of the section. -/
def secRound (data : List Byte) (isec ies : Int) (sec : Nat) : Option (Option Nat ⊕ Nat) :=
  data[sec + 2]?.bind fun id =>
    (if id.toNat = isec then secElts data ies sec else some none).bind fun
      | some elt => some (.inl (some elt))
      | none => secNext data sec

def secLoop (data : List Byte) (isec ies : Int) : Nat → Nat → Nat → Search
  | 0, _, _ => .running
  | rounds + 1, parsedLength, sec =>
    if parsedLength < data.length then
      match secRound data isec ies sec with
      | none => .outside
      | some (.inl elt) => .ret elt
      -- `parsedLength` does not wrap: the id at the new place has been read
      | some (.inr secLen) => secLoop data isec ies rounds (parsedLength + secLen) (sec + secLen)
    else .ret none

theorem secLoop_succ (data : List Byte) (isec ies : Int) (rounds parsedLength sec : Nat) :
    secLoop data isec ies (rounds + 1) parsedLength sec =
      if parsedLength < data.length then
        match secRound data isec ies sec with
        | none => .outside
        | some (.inl elt) => .ret elt
        | some (.inr secLen) => secLoop data isec ies rounds (parsedLength + secLen) (sec + secLen)
      else .ret none := rfl

/-- `none` is an `sdd` without data. -/
def sddGetIe (rounds : Nat) (data : Option (List Byte)) (isec ies : Int) : Search :=
  match data with
  | none => .ret none
  | some data =>
    match data[1]? with
    | none => .outside
    | some length => secLoop data isec ies rounds (2 + length.toNat) (2 + length.toNat)

/-! ## Where the search comes to -/

def byteAt (data : List Byte) (addr : Nat) : Nat := (data.getD addr 0).toNat

def lengthAt (data : List Byte) (addr : Nat) : Nat :=
  leNat [data.getD addr 0, data.getD (addr + 1) 0]

/-- From the element at the first place the loop comes to the second one. -/
inductive EltFrom (data : List Byte) (ies : Int) (stop : Nat) : Nat → Nat → Prop where
  | here (elt : Nat) : EltFrom data ies stop elt elt
  | next {elt elt' : Nat} (hlt : elt < stop) (hid : byteAt data elt ≠ ies)
    (h : EltFrom data ies stop (elt + 2 + byteAt data (elt + 1)) elt') :
    EltFrom data ies stop elt elt'

/-- The id of an element is in the blob, and its length when that is looked at. -/
def EltFits (data : List Byte) (ies : Int) (elt : Nat) : Prop :=
  elt < data.length ∧ (byteAt data elt ≠ ies → elt + 1 < data.length)

/-- The elements looked at in the section at `sec`: two bytes too many. -/
def InSec (data : List Byte) (ies : Int) (sec elt : Nat) : Prop :=
  EltFrom data ies (sec + 2 + lengthAt data (sec + 6)) (sec + 2 + byteAt data (sec + 1)) elt ∧
    elt < sec + 2 + lengthAt data (sec + 6)

def Hit (data : List Byte) (isec ies : Int) (sec : Nat) : Prop :=
  byteAt data (sec + 2) = isec ∧ ∃ elt, InSec data ies sec elt ∧ byteAt data elt = ies

/-- The header is in the blob, the elements are when they are looked at, and when the search goes on
there is the header of a next section behind this one. -/
structure SecFits (data : List Byte) (isec ies : Int) (sec : Nat) : Prop where
  header : sec + 7 < data.length
  elts : byteAt data (sec + 2) = isec → ∀ elt, InSec data ies sec elt → EltFits data ies elt
  next : ¬Hit data isec ies sec → sec + lengthAt data (sec + 6) + 2 < data.length ∧
    (data.getD (sec + lengthAt data (sec + 6) + 2) 0 ≠ sddLastSectId → 0 < lengthAt data (sec + 6))

inductive SecFrom (data : List Byte) (isec ies : Int) : Nat → Nat → Prop where
  | here (sec : Nat) : SecFrom data isec ies sec sec
  | next {sec sec' : Nat} (hlt : sec < data.length) (hno : ¬Hit data isec ies sec)
    (hlast : data.getD (sec + lengthAt data (sec + 6) + 2) 0 ≠ sddLastSectId)
    (h : SecFrom data isec ies (sec + lengthAt data (sec + 6)) sec') : SecFrom data isec ies sec sec'

/-- The length of the first element is in the blob, and each section the search comes to fits. -/
def Readable (data : List Byte) (isec ies : Int) : Prop :=
  1 < data.length ∧ ∀ sec, SecFrom data isec ies (2 + byteAt data 1) sec → sec < data.length →
    SecFits data isec ies sec

section

variable {data : List Byte} {isec ies : Int} {sec elt stop rounds : Nat}

theorem getElem?_of_lt (h : elt < data.length) : data[elt]? = some (data.getD elt 0) := by
  rw [List.getD_eq_getElem?_getD, List.getElem?_eq_getElem h, Option.getD_some]

theorem readLength_of_lt (h : sec + 1 < data.length) :
    readLength data sec = some (lengthAt data sec) := by
  rw [readLength, getElem?_of_lt (Nat.lt_of_succ_lt h), getElem?_of_lt h]
  rfl

theorem readLength_none (h : ¬sec + 1 < data.length) : readLength data sec = none := by
  rw [readLength, List.getElem?_eq_none (Nat.le_of_not_lt h)]
  cases data[sec]? <;> rfl

/-- What the loop over the elements does, by the elements it comes to. -/
theorem eltLoop_cases (data : List Byte) (ies : Int) {secLen secLength : Nat}
    (hstop : elt + secLen = stop + secLength) :
    (∃ e, EltFrom data ies stop elt e ∧ e < stop ∧ ¬EltFits data ies e ∧
      eltLoop data ies secLen secLength elt = none) ∨
    (∀ e, EltFrom data ies stop elt e → e < stop → EltFits data ies e) ∧
      ((∃ e, EltFrom data ies stop elt e ∧ e < stop ∧ byteAt data e = ies ∧
          eltLoop data ies secLen secLength elt = some (some e)) ∨
        (∀ e, EltFrom data ies stop elt e → e < stop → byteAt data e ≠ ies) ∧
          eltLoop data ies secLen secLength elt = some none) := by
  induction hn : secLen - secLength using Nat.strong_induction_on generalizing secLength elt with
  | _ n ih =>
    rw [eltLoop]
    by_cases hlt : secLength < secLen
    · rw [if_pos hlt]
      have hstop' : elt < stop := by omega
      by_cases hin : elt < data.length
      · rw [getElem?_of_lt hin, Option.bind_some]
        by_cases hid : (byteAt data elt : Int) = ies
        · rw [if_pos (by exact hid)]
          refine .inr ⟨fun e he hes => ?_, .inl ⟨elt, .here elt, hstop', hid, rfl⟩⟩
          cases he with
          | here => exact ⟨hin, fun h => absurd hid h⟩
          | next _ hne _ => exact absurd hid hne
        · rw [if_neg (by exact hid)]
          by_cases hin' : elt + 1 < data.length
          · rw [getElem?_of_lt hin', Option.bind_some]
            have hfits : EltFits data ies elt := ⟨hin, fun _ => hin'⟩
            rcases @ih _ (by subst hn; omega) (elt + 2 + byteAt data (elt + 1))
              (secLength + (2 + byteAt data (elt + 1))) (by omega) rfl with
              ⟨e, he, hes, hnot, hrun⟩ | ⟨hall, hres⟩
            · exact .inl ⟨e, .next hstop' hid he, hes, hnot, hrun⟩
            · refine .inr ⟨fun e he hes => ?_, ?_⟩
              · cases he with
                | here => exact hfits
                | next _ _ he => exact hall e he hes
              · rcases hres with ⟨e, he, hes, hids, hrun⟩ | ⟨hno, hrun⟩
                · exact .inl ⟨e, .next hstop' hid he, hes, hids, hrun⟩
                · refine .inr ⟨fun e he hes => ?_, hrun⟩
                  cases he with
                  | here => exact hid
                  | next _ _ he => exact hno e he hes
          · rw [List.getElem?_eq_none (Nat.le_of_not_lt hin')]
            exact .inl ⟨elt, .here elt, hstop', fun h => hin' (h.2 hid), rfl⟩
      · rw [List.getElem?_eq_none (Nat.le_of_not_lt hin)]
        exact .inl ⟨elt, .here elt, hstop', fun h => hin h.1, rfl⟩
    · rw [if_neg hlt]
      have hstop' : ¬elt < stop := by omega
      have hnone : ∀ e, EltFrom data ies stop elt e → ¬e < stop := by
        intro e he
        cases he with
        | here => exact hstop'
        | next hlt _ _ => exact absurd hlt hstop'
      exact .inr ⟨fun e he hes => absurd hes (hnone e he),
        .inr ⟨fun e he hes => absurd hes (hnone e he), rfl⟩⟩

theorem secElts_cases (ies : Int) (hhdr : sec + 7 < data.length) :
    (secElts data ies sec = none ∧ ¬∀ e, InSec data ies sec e → EltFits data ies e) ∨
    (∀ e, InSec data ies sec e → EltFits data ies e) ∧
      ((∃ e, InSec data ies sec e ∧ byteAt data e = ies ∧ secElts data ies sec = some (some e)) ∨
        (∀ e, InSec data ies sec e → byteAt data e ≠ ies) ∧ secElts data ies sec = some none) := by
  have hrun : secElts data ies sec = eltLoop data ies (lengthAt data (sec + 6))
      (byteAt data (sec + 1)) (sec + 2 + byteAt data (sec + 1)) := by
    rw [secElts, getElem?_of_lt (by omega), Option.bind_some, readLength_of_lt (by omega)]
    rfl
  rw [hrun]
  have hstop : sec + 2 + byteAt data (sec + 1) + lengthAt data (sec + 6) =
      sec + 2 + lengthAt data (sec + 6) + byteAt data (sec + 1) := by omega
  rcases eltLoop_cases data ies hstop with
    ⟨e, he, hes, hnot, hnone⟩ | ⟨hall, ⟨e, he, hes, hid, hsome⟩ | ⟨hno, hsome⟩⟩
  · exact .inl ⟨hnone, fun h => hnot (h e ⟨he, hes⟩)⟩
  · exact .inr ⟨fun e he => hall e he.1 he.2, .inl ⟨e, ⟨he, hes⟩, hid, hsome⟩⟩
  · exact .inr ⟨fun e he => hall e he.1 he.2, .inr ⟨fun e he => hno e he.1 he.2, hsome⟩⟩

theorem secNext_cases (hhdr : sec + 7 < data.length)
    (helts : byteAt data (sec + 2) = isec → ∀ e, InSec data ies sec e → EltFits data ies e)
    (hno : ¬Hit data isec ies sec) :
    (secNext data sec = none ∧ ¬SecFits data isec ies sec) ∨
    (data.getD (sec + lengthAt data (sec + 6) + 2) 0 = sddLastSectId ∧
        secNext data sec = some (.inl none) ∧ SecFits data isec ies sec ∨
      data.getD (sec + lengthAt data (sec + 6) + 2) 0 ≠ sddLastSectId ∧
        secNext data sec = some (.inr (lengthAt data (sec + 6))) ∧
        (SecFits data isec ies sec ↔ 0 < lengthAt data (sec + 6))) := by
  rw [secNext, readLength_of_lt (by omega), Option.bind_some]
  by_cases hnext : sec + lengthAt data (sec + 6) + 2 < data.length
  · rw [getElem?_of_lt hnext, Option.map_some]
    by_cases hlast : data.getD (sec + lengthAt data (sec + 6) + 2) 0 = sddLastSectId
    · rw [if_pos hlast]
      exact .inr (.inl ⟨hlast, rfl, hhdr, helts, fun _ => ⟨hnext, fun h => absurd hlast h⟩⟩)
    · rw [if_neg hlast]
      exact .inr (.inr ⟨hlast, rfl, fun h => (h.next hno).2 hlast,
        fun h => ⟨hhdr, helts, fun _ => ⟨hnext, fun _ => h⟩⟩⟩)
  · rw [List.getElem?_eq_none (Nat.le_of_not_lt hnext)]
    exact .inl ⟨rfl, fun h => hnext (h.next hno).1⟩

/-- What a round does: a section that does not fit, a hit, the last section, or the next one. -/
theorem secRound_cases (data : List Byte) (isec ies : Int) (sec : Nat) :
    (secRound data isec ies sec = none ∧ ¬SecFits data isec ies sec) ∨
    (∃ e, secRound data isec ies sec = some (.inl (some e)) ∧ SecFits data isec ies sec ∧
      Hit data isec ies sec) ∨
    ¬Hit data isec ies sec ∧
      (data.getD (sec + lengthAt data (sec + 6) + 2) 0 = sddLastSectId ∧
          secRound data isec ies sec = some (.inl none) ∧ SecFits data isec ies sec ∨
        data.getD (sec + lengthAt data (sec + 6) + 2) 0 ≠ sddLastSectId ∧
          secRound data isec ies sec = some (.inr (lengthAt data (sec + 6))) ∧
          (SecFits data isec ies sec ↔ 0 < lengthAt data (sec + 6))) := by
  rw [secRound]
  by_cases hid : sec + 2 < data.length
  swap
  · rw [List.getElem?_eq_none (Nat.le_of_not_lt hid)]
    exact .inl ⟨rfl, fun h => hid (by have := h.header; omega)⟩
  rw [getElem?_of_lt hid, Option.bind_some]
  by_cases hhdr : sec + 7 < data.length
  swap
  · refine .inl ⟨?_, fun h => hhdr h.header⟩
    have hlen : readLength data (sec + 6) = none := readLength_none (by omega)
    split
    · rw [secElts, hlen]
      cases data[sec + 1]? <;> rfl
    · rw [Option.bind_some]
      dsimp only
      rw [secNext, hlen]
      rfl
  by_cases hsec : (byteAt data (sec + 2) : Int) = isec
  · rw [if_pos (by exact hsec)]
    rcases secElts_cases ies hhdr with
      ⟨hnone, hnot⟩ | ⟨hall, ⟨e, he, hide, hsome⟩ | ⟨hno, hsome⟩⟩
    · rw [hnone]
      exact .inl ⟨rfl, fun h => hnot (h.elts hsec)⟩
    · have hhit : Hit data isec ies sec := ⟨hsec, e, he, hide⟩
      rw [hsome]
      exact .inr (.inl ⟨e, rfl, ⟨hhdr, fun _ => hall, fun h => absurd hhit h⟩, hhit⟩)
    · have hno' : ¬Hit data isec ies sec := fun ⟨_, e, he, hide⟩ => hno e he hide
      rw [hsome, Option.bind_some]
      exact (secNext_cases hhdr (fun _ => hall) hno').imp id fun h => .inr ⟨hno', h⟩
  · have hno' : ¬Hit data isec ies sec := fun h => hsec h.1
    rw [if_neg (by exact hsec), Option.bind_some]
    exact (secNext_cases hhdr (fun h => absurd h hsec) hno').imp id fun h => .inr ⟨hno', h⟩

/-! ## The search ends -/

/-- A section of length 0 that does not end the search is looked at for ever. -/
theorem secLoop_stuck (h : secRound data isec ies sec = some (.inr 0)) (rounds : Nat)
    (r : Option Nat) :
    secLoop data isec ies rounds sec sec ≠ .ret r ∨ data.length ≤ sec := by
  by_cases hlt : sec < data.length
  · refine .inl ?_
    induction rounds with
    | zero => exact nofun
    | succ n ih =>
      rw [secLoop_succ, if_pos hlt, h]
      exact ih
  · exact .inr (Nat.le_of_not_lt hlt)

theorem secLoop_add {r : Option Nat} (h : secLoop data isec ies rounds elt sec = .ret r) (n : Nat) :
    secLoop data isec ies (rounds + n) elt sec = .ret r := by
  induction rounds generalizing elt sec with
  | zero => exact nomatch h
  | succ rounds ih =>
    rw [Nat.succ_add]
    rw [secLoop_succ] at h ⊢
    split
    · rename_i hlt
      rw [if_pos hlt] at h
      split <;> rename_i hround <;> rw [hround] at h
      · exact h
      · exact h
      · exact ih h
    · rename_i hlt
      rw [if_neg hlt] at h
      exact h

theorem secLoop_fits {r : Option Nat} (h : secLoop data isec ies rounds sec sec = .ret r) {q : Nat}
    (hq : SecFrom data isec ies sec q) (hlt : q < data.length) : SecFits data isec ies q := by
  induction rounds generalizing sec with
  | zero => exact nomatch h
  | succ rounds ih =>
    cases hq with
    | here =>
      rw [secLoop_succ, if_pos hlt] at h
      rcases secRound_cases data isec ies q with
        ⟨hround, -⟩ | ⟨e, -, hfits, -⟩ | ⟨-, ⟨-, -, hfits⟩ | ⟨-, hround, hfits⟩⟩
      · rw [hround] at h
        cases h
      · exact hfits
      · exact hfits
      · refine hfits.mpr (Nat.pos_of_ne_zero fun hzero => ?_)
        rw [hround] at h
        rw [hzero] at hround h
        rcases secLoop_stuck hround rounds r with hne | hle
        · exact hne h
        · omega
    | next hsec hno hlast hq =>
      rw [secLoop_succ, if_pos hsec] at h
      rcases secRound_cases data isec ies sec with
        ⟨hround, -⟩ | ⟨e, -, -, hhit⟩ | ⟨-, ⟨hlast', -⟩ | ⟨-, hround, -⟩⟩
      · rw [hround] at h
        cases h
      · exact absurd hhit hno
      · exact absurd hlast' hlast
      · rw [hround] at h
        exact ih h hq

theorem secLoop_ends
    (h : ∀ q, SecFrom data isec ies sec q → q < data.length → SecFits data isec ies q) :
    ∃ rounds r, secLoop data isec ies rounds sec sec = .ret r := by
  induction hn : data.length - sec using Nat.strong_induction_on generalizing sec with
  | _ n ih =>
    by_cases hlt : sec < data.length
    swap
    · exact ⟨1, none, by rw [secLoop_succ, if_neg hlt]⟩
    have hfits := h sec (.here sec) hlt
    rcases secRound_cases data isec ies sec with
      ⟨-, hnot⟩ | ⟨e, hround, -⟩ | ⟨hno, ⟨-, hround, -⟩ | ⟨hlast, hround, hpos⟩⟩
    · exact absurd hfits hnot
    · exact ⟨1, some e, by rw [secLoop_succ, if_pos hlt, hround]⟩
    · exact ⟨1, none, by rw [secLoop_succ, if_pos hlt, hround]⟩
    · have hpos := hpos.mp hfits
      obtain ⟨rounds, r, hrun⟩ := @ih _ (by omega) (sec + lengthAt data (sec + 6))
        (fun q hq => h q (.next hlt hno hlast hq)) rfl
      exact ⟨rounds + 1, r, by rw [secLoop_succ, if_pos hlt, hround]; exact hrun⟩

/-- The search ends, with no read outside of the blob, exactly when all it comes to fits. -/
theorem sddGetIe_ends_iff :
    (∃ rounds r, sddGetIe rounds (some data) isec ies = .ret r) ↔ Readable data isec ies := by
  by_cases hlen : 1 < data.length
  · have hrun : ∀ rounds, sddGetIe rounds (some data) isec ies =
        secLoop data isec ies rounds (2 + byteAt data 1) (2 + byteAt data 1) := by
      intro rounds
      simp only [sddGetIe, getElem?_of_lt hlen]
      rfl
    simp only [hrun]
    exact ⟨fun ⟨_, _, h⟩ => ⟨hlen, fun _ hq hlt => secLoop_fits h hq hlt⟩,
      fun h => secLoop_ends h.2⟩
  · refine ⟨fun ⟨rounds, r, h⟩ => ?_, fun h => absurd h.1 hlen⟩
    rw [sddGetIe, List.getElem?_eq_none (Nat.le_of_not_lt hlen)] at h
    cases h

theorem sddGetIe_unique {rounds' : Nat} {r r' : Option Nat} {d : Option (List Byte)}
    (h : sddGetIe rounds d isec ies = .ret r) (h' : sddGetIe rounds' d isec ies = .ret r') :
    r = r' := by
  cases d with
  | none => exact Search.ret.inj (h.symm.trans h')
  | some data =>
    simp only [sddGetIe] at h h'
    split at h
    · cases h
    · rename_i hlen
      rw [hlen] at h'
      have h1 := secLoop_add h rounds'
      rw [Nat.add_comm, secLoop_add h' rounds] at h1
      exact (Search.ret.inj h1).symm

end

/-! ## Well-formed blobs -/

/-- `struct sdd_ie`. -/
structure SddIe where
  id : Byte
  data : List Byte
  length_lt : data.length < 256

def SddIe.bytes (e : SddIe) : List Byte := e.id :: BitVec.ofNat 8 e.data.length :: e.data

def eltsBytes (elts : List SddIe) : List Byte := elts.flatMap SddIe.bytes

/-- `struct sdd_sec_header`: itself the first element of its section. -/
def secHeader (id majorVer minorVer reserve : Byte) (secLength : Nat) : List Byte :=
  [sddSectionHeaderEltId, 6, id, majorVer, minorVer, reserve] ++ leBytes 2 secLength

/-- A section. Only the last one has the id `SDD_LAST_SECT_ID`. -/
structure SddSection where
  id : Byte
  majorVer : Byte
  minorVer : Byte
  reserve : Byte
  elts : List SddIe
  id_ne : id ≠ sddLastSectId
  length_lt : 8 + (eltsBytes elts).length < 2 ^ 16

def SddSection.size (s : SddSection) : Nat := 8 + (eltsBytes s.elts).length

def SddSection.bytes (s : SddSection) : List Byte :=
  secHeader s.id s.majorVer s.minorVer s.reserve s.size ++ eltsBytes s.elts

/-- The version, the sections, and the header of the last section, which is empty. -/
structure SddFile where
  version : SddIe
  sections : List SddSection
  last : Byte × Byte × Byte

def secsBytes (last : Byte × Byte × Byte) (sections : List SddSection) : List Byte :=
  sections.flatMap SddSection.bytes ++ secHeader sddLastSectId last.1 last.2.1 last.2.2 0

def SddFile.bytes (f : SddFile) : List Byte := f.version.bytes ++ secsBytes f.last f.sections

/-- The place of the first element with the id, the first one being at `addr`. -/
def findElt (ies : Int) : Nat → List SddIe → Option Nat
  | _, [] => none
  | addr, e :: rest => if e.id.toNat = ies then some addr else findElt ies (addr + e.bytes.length) rest

def findSec (isec ies : Int) : Nat → List SddSection → Option Nat
  | _, [] => none
  | addr, s :: rest =>
    if s.id.toNat = isec then findElt ies (addr + 8) s.elts else findSec isec ies (addr + s.size) rest

/-- The first element with the id in the first section with the id. -/
def SddFile.lookup (f : SddFile) (isec ies : Int) : Option Nat :=
  findSec isec ies f.version.bytes.length f.sections

/-- What the search returns: it takes the next header for one more element, and goes on to the other
sections with the id. -/
def scanSec (isec ies : Int) : Nat → List SddSection → Option Nat
  | _, [] => none
  | addr, s :: rest =>
    if s.id.toNat = isec then
      match findElt ies (addr + 8) s.elts with
      | some elt => some elt
      | none =>
        if sddSectionHeaderEltId.toNat = ies then some (addr + s.size)
        else scanSec isec ies (addr + s.size) rest
    else scanSec isec ies (addr + s.size) rest

section

variable {isec ies : Int} {pre post : List Byte} {last : Byte × Byte × Byte}

theorem eltLoop_elts (ies : Int) (elts : List SddIe) {len : Byte} {secLen secLength : Nat}
    {data : List Byte}
    (hdata : data = pre ++ (eltsBytes elts ++ sddSectionHeaderEltId :: len :: post))
    (hlen : secLen = secLength + (eltsBytes elts).length + 2) :
    eltLoop data ies secLen secLength pre.length = some
      (match findElt ies pre.length elts with
        | some elt => some elt
        | none => if sddSectionHeaderEltId.toNat = ies then
            some (pre.length + (eltsBytes elts).length) else none) := by
  induction elts generalizing pre secLength with
  | nil =>
    have hid : data[pre.length]? = some sddSectionHeaderEltId := by simp [hdata, eltsBytes]
    have hnext : data[pre.length + 1]? = some len := by simp [hdata, eltsBytes]
    rw [eltLoop, if_pos (by omega), hid, hnext, Option.bind_some, Option.bind_some]
    dsimp only [findElt]
    by_cases hies : (sddSectionHeaderEltId.toNat : Int) = ies
    · rw [if_pos hies, if_pos hies]
      rfl
    · rw [if_neg hies, if_neg hies, eltLoop, if_neg]
      simp only [eltsBytes, List.flatMap_nil, List.length_nil] at hlen
      omega
  | cons e rest ih =>
    have hid : data[pre.length]? = some e.id := by simp [hdata, eltsBytes, SddIe.bytes]
    have hnext : data[pre.length + 1]? = some (BitVec.ofNat 8 e.data.length) := by
      simp [hdata, eltsBytes, SddIe.bytes]
    have hsize : (BitVec.ofNat 8 e.data.length).toNat = e.data.length :=
      Nat.mod_eq_of_lt e.length_lt
    have hbytes : e.bytes.length = 2 + e.data.length := by simp [SddIe.bytes]; omega
    have htotal : (eltsBytes (e :: rest)).length = e.bytes.length + (eltsBytes rest).length := by
      simp [eltsBytes]
    rw [eltLoop, if_pos (by omega), hid, hnext, Option.bind_some, Option.bind_some, findElt, hsize]
    by_cases hies : (e.id.toNat : Int) = ies
    · rw [if_pos hies, if_pos hies]
    · have hadd : pre.length + e.bytes.length = pre.length + 2 + e.data.length := by
        rw [hbytes]
        omega
      have hpre : (pre ++ e.bytes).length = pre.length + 2 + e.data.length := by
        rw [List.length_append, hadd]
      have hrest := @ih (pre ++ e.bytes) (secLength + (2 + e.data.length))
        (by simp [hdata, eltsBytes]) (by omega)
      rw [hpre] at hrest
      rw [if_neg hies, if_neg hies, hrest, htotal, ← Nat.add_assoc, hadd]

theorem getElem?_behind (pre bs : List Byte) (k : Nat) : (pre ++ bs)[pre.length + k]? = bs[k]? := by
  rw [List.getElem?_append_right (Nat.le_add_right ..), Nat.add_sub_cancel_left]

theorem SddSection.length_bytes (s : SddSection) : s.bytes.length = s.size := by
  rw [SddSection.bytes, List.length_append, SddSection.size]
  rfl

theorem head_secsBytes (last : Byte × Byte × Byte) (sections : List SddSection) :
    ∃ id rest, secsBytes last sections = sddSectionHeaderEltId :: 6 :: id :: rest ∧
      (id = sddLastSectId ↔ sections = []) := by
  cases sections with
  | nil => exact ⟨_, _, rfl, iff_of_true rfl rfl⟩
  | cons s rest => exact ⟨s.id, _, rfl, iff_of_false s.id_ne (List.cons_ne_nil _ _)⟩

/-- The fields of a section of a well-formed blob, and of what is behind it. -/
theorem secRound_section {s : SddSection} {rest : List SddSection} {data : List Byte}
    (hdata : data = pre ++ secsBytes last (s :: rest)) :
    data[pre.length + 2]? = some s.id ∧ data[pre.length + 1]? = some 6 ∧
      readLength data (pre.length + 6) = some s.size ∧
      ∃ next, data[pre.length + s.size + 2]? = some next ∧
        (next = sddLastSectId ↔ rest = []) := by
  have hbytes : secsBytes last (s :: rest) = s.bytes ++ secsBytes last rest := by
    simp [secsBytes]
  have hlt : s.size < 256 ^ 2 := s.length_lt
  rw [hbytes] at hdata
  refine ⟨by rw [hdata, getElem?_behind]; rfl, by rw [hdata, getElem?_behind]; rfl, ?_, ?_⟩
  · have hlo : data[pre.length + 6]? = some (BitVec.ofNat 8 s.size) := by
      rw [hdata, getElem?_behind]
      rfl
    have hhi : data[pre.length + 6 + 1]? = some (BitVec.ofNat 8 (s.size / 256)) := by
      rw [hdata, Nat.add_assoc, getElem?_behind]
      rfl
    have hle := leNat_leBytes 2 s.size
    rw [Nat.mod_eq_of_lt hlt] at hle
    rw [readLength, hlo, hhi]
    exact congrArg some hle
  · obtain ⟨id, tail, htail, hid⟩ := head_secsBytes last rest
    refine ⟨id, ?_, hid⟩
    rw [hdata, Nat.add_assoc, getElem?_behind, ← s.length_bytes, getElem?_behind, htail]
    rfl

theorem secElts_section (ies : Int) {s : SddSection} {rest : List SddSection} {data : List Byte}
    (hdata : data = pre ++ secsBytes last (s :: rest)) :
    secElts data ies pre.length = some
      (match findElt ies (pre.length + 8) s.elts with
        | some elt => some elt
        | none => if sddSectionHeaderEltId.toNat = ies then some (pre.length + s.size) else none) := by
  obtain ⟨-, hie, hsec, -⟩ := secRound_section hdata
  obtain ⟨id, tail, htail, -⟩ := head_secsBytes last rest
  have hbytes : data = (pre ++ secHeader s.id s.majorVer s.minorVer s.reserve s.size) ++
      (eltsBytes s.elts ++ sddSectionHeaderEltId :: 6 :: (id :: tail)) := by
    rw [hdata, ← htail]
    simp [secsBytes, SddSection.bytes]
  have hpre : (pre ++ secHeader s.id s.majorVer s.minorVer s.reserve s.size).length =
      pre.length + 8 := by simp [secHeader]
  have hlen : s.size = 6 + (eltsBytes s.elts).length + 2 := by
    rw [SddSection.size]
    omega
  have hrun := eltLoop_elts ies s.elts hbytes hlen
  rw [hpre] at hrun
  rw [secElts, hie, hsec, Option.bind_some, Option.bind_some]
  refine hrun.trans ?_
  rw [SddSection.size, Nat.add_assoc]

theorem secRound_last {data : List Byte} (hdata : data = pre ++ secsBytes last []) :
    secRound data isec ies pre.length = some (.inl none) := by
  have hbytes : secsBytes last [] = secHeader sddLastSectId last.1 last.2.1 last.2.2 0 := rfl
  rw [hbytes] at hdata
  have hid : data[pre.length + 2]? = some sddLastSectId := by
    rw [hdata, getElem?_behind]
    rfl
  have hsec : readLength data (pre.length + 6) = some 0 := by
    have hlo : data[pre.length + 6]? = some 0 := by
      rw [hdata, getElem?_behind]
      rfl
    have hhi : data[pre.length + 6 + 1]? = some 0 := by
      rw [hdata, Nat.add_assoc, getElem?_behind]
      rfl
    rw [readLength, hlo, hhi]
    rfl
  have hlen : data[pre.length + 1]? = some 6 := by
    rw [hdata, getElem?_behind]
    rfl
  have hnext : secNext data pre.length = some (.inl none) := by
    rw [secNext, hsec, Option.bind_some, Nat.add_zero, hid]
    rfl
  have helts : secElts data ies pre.length = some none := by
    rw [secElts, hlen, hsec, Option.bind_some, Option.bind_some, eltLoop]
    rfl
  rw [secRound, hid, Option.bind_some, helts, ite_self]
  exact hnext

theorem length_lt_of_secs {sections : List SddSection} {data : List Byte}
    (hdata : data = pre ++ secsBytes last sections) : pre.length < data.length := by
  obtain ⟨id, rest, hrest, -⟩ := head_secsBytes last sections
  rw [hdata, hrest, List.length_append, List.length_cons]
  omega

theorem secLoop_secs (isec ies : Int) (sections : List SddSection) {data : List Byte}
    (hdata : data = pre ++ secsBytes last sections) :
    secLoop data isec ies (sections.length + 1) pre.length pre.length =
      .ret (scanSec isec ies pre.length sections) := by
  have hlt := length_lt_of_secs hdata
  induction sections generalizing pre with
  | nil =>
    rw [secLoop_succ, if_pos hlt, secRound_last hdata]
    rfl
  | cons s rest ih =>
    obtain ⟨hid, -, hsec, next, hnext, hlast⟩ := secRound_section hdata
    have helts := secElts_section ies hdata
    have hpre : (pre ++ s.bytes).length = pre.length + s.size := by
      rw [List.length_append, s.length_bytes]
    have hdata' : data = (pre ++ s.bytes) ++ secsBytes last rest := by
      rw [hdata]
      simp [secsBytes]
    -- with no hit, the next section
    have hgo : secRound data isec ies pre.length = secNext data pre.length →
        secLoop data isec ies (rest.length + 1 + 1) pre.length pre.length =
          .ret (scanSec isec ies (pre.length + s.size) rest) := by
      intro hround
      rw [secLoop_succ, if_pos hlt, hround, secNext, hsec, Option.bind_some, hnext, Option.map_some]
      by_cases hrest : rest = []
      · subst hrest
        rw [if_pos (hlast.mpr rfl)]
        rfl
      · rw [if_neg fun h => hrest (hlast.mp h)]
        have hbehind := ih hdata' (length_lt_of_secs hdata')
        rw [hpre] at hbehind
        exact hbehind
    have hround : secRound data isec ies pre.length =
        (if (s.id.toNat : Int) = isec then secElts data ies pre.length else some none).bind fun
          | some elt => some (.inl (some elt))
          | none => secNext data pre.length := by
      rw [secRound, hid]
      rfl
    rw [scanSec]
    by_cases hs : (s.id.toNat : Int) = isec
    · rw [if_pos hs]
      rw [if_pos hs, helts, Option.bind_some] at hround
      cases hfind : findElt ies (pre.length + 8) s.elts with
      | some elt =>
        rw [hfind] at hround
        rw [List.length_cons, secLoop_succ, if_pos hlt, hround]
      | none =>
        rw [hfind] at hround
        by_cases hies : (sddSectionHeaderEltId.toNat : Int) = ies
        · dsimp only at hround ⊢
          rw [if_pos hies] at hround ⊢
          rw [List.length_cons, secLoop_succ, if_pos hlt, hround]
        · dsimp only at hround ⊢
          rw [if_neg hies] at hround ⊢
          exact hgo hround
    · rw [if_neg hs]
      rw [if_neg hs] at hround
      exact hgo hround

/-- The search in a well-formed blob. -/
theorem sddGetIe_file (f : SddFile) (isec ies : Int) :
    sddGetIe (f.sections.length + 1) (some f.bytes) isec ies =
      .ret (scanSec isec ies f.version.bytes.length f.sections) := by
  have hlen : f.bytes[1]? = some (BitVec.ofNat 8 f.version.data.length) := rfl
  have hsize : 2 + (BitVec.ofNat 8 f.version.data.length).toNat = f.version.bytes.length := by
    rw [BitVec.toNat_ofNat, Nat.mod_eq_of_lt f.version.length_lt]
    simp [SddIe.bytes]
    omega
  have hbytes : f.bytes = f.version.bytes ++ secsBytes f.last f.sections := rfl
  have hrun := secLoop_secs isec ies f.sections hbytes
  rw [sddGetIe, hlen]
  dsimp only
  rw [hsize]
  exact hrun

theorem SddFile.readable (f : SddFile) (isec ies : Int) : Readable f.bytes isec ies :=
  sddGetIe_ends_iff.mp ⟨_, _, sddGetIe_file f isec ies⟩

/-- The sections, from the first one with the id on. -/
def fromSec (isec : Int) (sections : List SddSection) : List SddSection :=
  sections.dropWhile fun s => s.id.toNat ≠ isec

def HasElt (ies : Int) (s : SddSection) : Prop := ∃ e ∈ s.elts, e.id.toNat = ies

/-- The first section with the id has the element, or the element is not the header of a section and
no other section with the id has it. -/
def Decided (isec ies : Int) (f : SddFile) : Prop :=
  ∀ s rest, fromSec isec f.sections = s :: rest → HasElt ies s ∨
    ies ≠ sddSectionHeaderEltId.toNat ∧ ∀ s' ∈ rest, s'.id.toNat = isec → ¬HasElt ies s'

theorem findElt_eq_none {addr : Nat} {elts : List SddIe} :
    findElt ies addr elts = none ↔ ∀ e ∈ elts, (e.id.toNat : Int) ≠ ies := by
  induction elts generalizing addr with
  | nil => simp [findElt]
  | cons e rest ih =>
    rw [findElt]
    by_cases h : (e.id.toNat : Int) = ies
    · simp [h]
    · rw [if_neg h, ih]
      simp [h]

theorem scanSec_eq_none {addr : Nat} {sections : List SddSection}
    (hies : ies ≠ sddSectionHeaderEltId.toNat) :
    scanSec isec ies addr sections = none ↔
      ∀ s ∈ sections, s.id.toNat = isec → ¬HasElt ies s := by
  induction sections generalizing addr with
  | nil => simp [scanSec]
  | cons s rest ih =>
    rw [scanSec]
    by_cases hs : (s.id.toNat : Int) = isec
    · rw [if_pos hs]
      cases hfind : findElt ies (addr + 8) s.elts with
      | some elt =>
        have hhas : HasElt ies s := by
          by_contra hno
          rw [findElt_eq_none.mpr fun e he heq => hno ⟨e, he, heq⟩] at hfind
          cases hfind
        simp [hs, hhas]
      | none =>
        have hno : ¬HasElt ies s := fun ⟨e, he, heq⟩ => findElt_eq_none.mp hfind e he heq
        dsimp only
        rw [if_neg (Ne.symm hies), ih]
        simp [hno]
    · rw [if_neg hs, ih]
      simp [hs]

theorem scanSec_eq_iff {addr : Nat} {sections : List SddSection} :
    scanSec isec ies addr sections = findSec isec ies addr sections ↔
      ∀ s rest, fromSec isec sections = s :: rest → HasElt ies s ∨
        ies ≠ sddSectionHeaderEltId.toNat ∧ ∀ s' ∈ rest, s'.id.toNat = isec → ¬HasElt ies s' := by
  induction sections generalizing addr with
  | nil => simp [scanSec, findSec, fromSec]
  | cons s rest ih =>
    rw [scanSec, findSec]
    by_cases hs : (s.id.toNat : Int) = isec
    · have hfrom : fromSec isec (s :: rest) = s :: rest := by simp [fromSec, hs]
      rw [if_pos hs, if_pos hs, hfrom]
      cases hfind : findElt ies (addr + 8) s.elts with
      | some elt =>
        have hhas : HasElt ies s := by
          by_contra hno
          rw [findElt_eq_none.mpr fun e he heq => hno ⟨e, he, heq⟩] at hfind
          cases hfind
        refine iff_of_true rfl fun s' rest' h => ?_
        obtain ⟨rfl, -⟩ := List.cons.inj h
        exact .inl hhas
      | none =>
        have hno : ¬HasElt ies s := fun ⟨e, he, heq⟩ => findElt_eq_none.mp hfind e he heq
        dsimp only
        by_cases hies : ies = sddSectionHeaderEltId.toNat
        · rw [if_pos hies.symm]
          refine iff_of_false nofun fun h => ?_
          exact (h s rest rfl).elim hno fun h => h.1 hies
        · rw [if_neg (Ne.symm hies), scanSec_eq_none hies]
          refine ⟨fun h s' rest' heq => ?_, fun h => ?_⟩
          · obtain ⟨rfl, rfl⟩ := List.cons.inj heq
            exact .inr ⟨hies, h⟩
          · exact (h s rest rfl).elim (fun hhas => absurd hhas hno) And.right
    · have hfrom : fromSec isec (s :: rest) = fromSec isec rest := by simp [fromSec, hs]
      rw [if_neg hs, if_neg hs, hfrom]
      exact ih

/-- What the search is to do: end, read inside of the blob only, and find the element in a well-formed
blob. -/
def FindsIe (data : List Byte) (isec ies : Int) : Prop :=
  (∃ rounds r, sddGetIe rounds (some data) isec ies = .ret r) ∧
    ∀ f : SddFile, f.bytes = data → ∀ rounds r, sddGetIe rounds (some data) isec ies = .ret r →
      r = f.lookup isec ies

theorem sddGetIe_finds (data : List Byte) (isec ies : Int) :
    FindsIe data isec ies ↔
      Readable data isec ies ∧ ∀ f : SddFile, f.bytes = data → Decided isec ies f := by
  rw [FindsIe, sddGetIe_ends_iff]
  refine and_congr_right fun _ => forall_congr' fun f => forall_congr' fun hf => ?_
  have hrun := sddGetIe_file f isec ies
  rw [hf] at hrun
  refine Iff.trans ⟨fun h => h _ _ hrun, fun h rounds r hr => ?_⟩ scanSec_eq_iff
  rw [sddGetIe_unique hr hrun]
  exact h

/-- A section of length 0 that is not the last one. -/
theorem sddGetIe_never_ends :
    ¬FindsIe [0xC0, 0, 0xC1, 6, 1, 0, 0, 0, 0, 0] 0 0xC9 := by
  rintro ⟨⟨rounds, r, h⟩, -⟩
  have hround : secRound [0xC0, 0, 0xC1, 6, 1, 0, 0, 0, 0, 0] 0 0xC9 2 = some (.inr 0) := rfl
  rcases secLoop_stuck hround rounds r with hne | hle
  · exact hne h
  · exact absurd hle (by decide)

end

end Sdd
end XR806

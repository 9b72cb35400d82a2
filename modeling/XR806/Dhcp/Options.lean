import XR806.Mem

/-!
# XR806.Dhcp.Options

The options of a DHCP packet (`options.c`): `get_option` looks for one in the option field, and in
the file and server name fields when the overload option says that they hold options too;
`add_option_string` writes one in front of the end option.

* `getOption_bounded`: the search ends for every packet. It reads at most two bytes behind the field
  it is in, and what it finds lies in that field with all of its length.
* `Area.get`: in a field that holds options and nothing else, it finds the first with the code.
* `Area.add`: `add_option_string` puts an option behind those of such a field when there is room.
-/

namespace XR806
namespace Dhcp

open Mem

/-- Memory from an address on. -/
abbrev Bytes := Nat → UInt8

def dhcpPadding : UInt8 := 0x00
def dhcpSubnet : UInt8 := 0x01
def dhcpRouter : UInt8 := 0x03
def dhcpDnsServer : UInt8 := 0x06
def dhcpRequestedIp : UInt8 := 0x32
def dhcpLeaseTime : UInt8 := 0x33
def dhcpOptionOver : UInt8 := 0x34
def dhcpMessageType : UInt8 := 0x35
def dhcpServerId : UInt8 := 0x36
def dhcpEnd : UInt8 := 0xFF

/-! ## Finding an option -/

/-- `OPTION_FIELD`, `FILE_FIELD` and `SNAME_FIELD`. -/
inductive Field where
  | option
  | file
  | sname
  deriving DecidableEq

/-- Where the fields are, from the begin of `sname` on: the cookie is between `file` and
`options`. -/
def Field.start : Field → Nat
  | .option => 196
  | .file => 64
  | .sname => 0

def Field.length : Field → Nat
  | .option => 308
  | .file => 128
  | .sname => 64

/-- The variables of the loop of `get_option`. -/
structure Scan where
  curr : Field
  i : Nat
  /-- `over`. -/
  overFlag : UInt8
  deriving DecidableEq

inductive Round where
  | found (ptr : Nat)
  | bogus
  | done
  | next (s : Scan)
  deriving DecidableEq

/-- A round of the loop, and the addresses it reads. -/
def getOptionRound (mem : Bytes) (code : UInt8) (s : Scan) : List Nat × Round :=
  let optionptr := s.curr.start
  let length := s.curr.length
  let optCode := optionptr + s.i
  let optLen := optionptr + s.i + 1
  if s.i ≥ length then ([], .bogus)
  else if mem optCode = code then
    ([optCode, optLen],
      if s.i + 1 + (mem optLen).toNat ≥ length then .bogus else .found (optionptr + s.i + 2))
  else if mem optCode = dhcpPadding then ([optCode], .next { s with i := s.i + 1 })
  else if mem optCode = dhcpOptionOver then
    if s.i + 1 + (mem optLen).toNat ≥ length then ([optCode, optLen], .bogus)
    else
      -- the length is that of the first option of the field
      ([optCode, optLen, optionptr + s.i + 3, optionptr + 1],
        .next { s with
          overFlag := mem (optionptr + s.i + 3)
          i := s.i + ((mem (optionptr + 1)).toNat + 2) })
  else if mem optCode = dhcpEnd then
    ([optCode],
      if s.curr = .option ∧ s.overFlag &&& 1 ≠ 0 then .next { s with curr := .file, i := 0 }
      else if s.curr = .file ∧ s.overFlag &&& 2 ≠ 0 then .next { s with curr := .sname, i := 0 }
      else .done)
  else ([optCode, optLen], .next { s with i := s.i + ((mem optLen).toNat + 2) })

/-- How `get_option` ends; `running` is a loop that has used up its rounds. -/
inductive Search where
  | ret (ptr : Option Nat)
  | running
  deriving DecidableEq

def getOptionLoop (mem : Bytes) (code : UInt8) : Nat → Scan → List Nat × Search
  | 0, _ => ([], .running)
  | rounds + 1, s =>
    match getOptionRound mem code s with
    | (reads, .found ptr) => (reads, .ret (some ptr))
    | (reads, .bogus) => (reads, .ret none)
    | (reads, .done) => (reads, .ret none)
    | (reads, .next s') =>
      let rest := getOptionLoop mem code rounds s'
      (reads ++ rest.1, rest.2)

/-- The rounds that are enough for any packet. -/
def getOptionRounds : Nat := 600

def getOptionScan (mem : Bytes) (code : UInt8) : List Nat × Search :=
  getOptionLoop mem code getOptionRounds ⟨.option, 0, 0⟩

/-- `get_option`: the address of the data. -/
def getOption (mem : Bytes) (code : UInt8) : Option Nat :=
  match (getOptionScan mem code).2 with
  | .ret ptr => ptr
  | .running => none

/-! ## Adding an option -/

/-- `end_option`; `none` is a loop that has used up its rounds. -/
def endOptionLoop (optionptr : Bytes) : Nat → Nat → Option Nat
  | 0, _ => none
  | rounds + 1, i =>
    if optionptr i = dhcpEnd then some i
    else if optionptr i = dhcpPadding then endOptionLoop optionptr rounds (i + 1)
    else endOptionLoop optionptr rounds (i + ((optionptr (i + 1)).toNat + 2))

/-- An option string: an option code, a length and the data. -/
structure OptionString where
  code : UInt8
  data : List UInt8
  length_lt : data.length < 256

namespace OptionString

def len (o : OptionString) : UInt8 := UInt8.ofNat o.data.length

def bytes (o : OptionString) : List UInt8 := o.code :: o.len :: o.data

end OptionString

/-- `add_option_string`; `none` when `end_option` does not come to an end. -/
def addOptionString (optionptr : Bytes) (string : OptionString) : Option Bytes :=
  (endOptionLoop optionptr 309 0).map fun «end» =>
    if «end» + string.len.toNat + 2 + 1 ≥ 308 then optionptr
    else memcpy optionptr «end» (string.bytes ++ [dhcpEnd])

inductive OptionType where
  | ip | ipPair | string | boolean | u8 | u16 | s16 | u32 | s32
  deriving DecidableEq

def optionLength : OptionType → Nat
  | .ip => 4
  | .ipPair => 8
  | .boolean => 1
  | .string => 1
  | .u8 => 1
  | .u16 => 2
  | .s16 => 2
  | .u32 => 4
  | .s32 => 4

/-- `options`, without the names. -/
def dhcpOptions : List (OptionType × UInt8) :=
  [(.ip, 0x01), (.s32, 0x02), (.ip, 0x03), (.ip, 0x04), (.ip, 0x05), (.ip, 0x06), (.ip, 0x07),
   (.ip, 0x08), (.ip, 0x09), (.string, 0x0c), (.u16, 0x0d), (.string, 0x0f), (.ip, 0x10),
   (.string, 0x11), (.u8, 0x17), (.u16, 0x1a), (.ip, 0x1c), (.ip, 0x2a), (.ip, 0x2c), (.ip, 0x32),
   (.u32, 0x33), (.u8, 0x35), (.ip, 0x36), (.string, 0x38), (.string, 0x42), (.string, 0x43)]

/-- The bytes of a number in memory, low byte first. -/
def leBytes : Nat → Nat → List UInt8
  | 0, _ => []
  | n + 1, x => UInt8.ofNat x :: leBytes n (x / 256)

theorem length_leBytes (n x : Nat) : (leBytes n x).length = n := by
  induction n generalizing x with
  | zero => rfl
  | succ n ih => simp [leBytes, ih]

/-- The option that `add_simple_option` adds; `none` is a code it does not know. -/
def simpleOption (code : UInt8) (data : Nat) : Option OptionString :=
  (dhcpOptions.find? fun option => option.2 = code).bind fun option =>
    if h : optionLength option.1 < 256 then
      some ⟨code, leBytes (optionLength option.1) data, by rwa [length_leBytes]⟩
    else none

def addSimpleOption (optionptr : Bytes) (code : UInt8) (data : Nat) : Option Bytes :=
  match simpleOption code data with
  | some string => addOptionString optionptr string
  | none => some optionptr

/-! ## Bounds -/

section

variable {mem optionptr : Bytes} {code : UInt8} {s s' : Scan} {reads : List Nat} {ptr rounds : Nat}

/-- Up to two bytes behind a field are still looked at. -/
def NearField (a : Nat) : Prop := ∃ f : Field, f.start ≤ a ∧ a < f.start + f.length + 2

/-- The data at `ptr`, with the length in front of it, is in a field. -/
def DataAt (mem : Bytes) (code : UInt8) (ptr : Nat) : Prop :=
  ∃ f : Field, f.start + 2 ≤ ptr ∧ mem (ptr - 2) = code ∧
    ptr + (mem (ptr - 1)).toNat ≤ f.start + f.length

/-- The rounds that are left, one for each byte of this field and of the fields behind it. -/
def Scan.left (s : Scan) : Nat :=
  (match s.curr with
    | .option => 194
    | .file => 65
    | .sname => 0) + (s.curr.length - s.i) + 1

/-- What a round does: it ends, or goes on behind the place it has looked at, or in a field whose
turn has not been yet. -/
inductive RoundDoes (mem : Bytes) (code : UInt8) (s : Scan) : Round → Prop where
  | bogus : RoundDoes mem code s .bogus
  | done : RoundDoes mem code s .done
  | found (hcode : mem (s.curr.start + s.i) = code)
    (hlen : s.i + 1 + (mem (s.curr.start + s.i + 1)).toNat < s.curr.length) :
    RoundDoes mem code s (.found (s.curr.start + s.i + 2))
  | further {i : Nat} {overFlag : UInt8} (hi : s.i < s.curr.length) (hlt : s.i < i) :
    RoundDoes mem code s (.next ⟨s.curr, i, overFlag⟩)
  | file (hcurr : s.curr = .option) : RoundDoes mem code s (.next ⟨.file, 0, s.overFlag⟩)
  | sname (hcurr : s.curr = .file) : RoundDoes mem code s (.next ⟨.sname, 0, s.overFlag⟩)

theorem getOptionRound_does (mem : Bytes) (code : UInt8) (s : Scan) :
    (∀ a ∈ (getOptionRound mem code s).1, NearField a) ∧
      RoundDoes mem code s (getOptionRound mem code s).2 := by
  have hnear : ∀ k, k ≤ s.curr.length + 1 → NearField (s.curr.start + k) := fun k hk =>
    ⟨s.curr, by omega, by omega⟩
  unfold getOptionRound
  simp only []
  split
  · exact ⟨by simp, .bogus⟩
  rename_i hi
  have hone : NearField (s.curr.start + s.i) := hnear s.i (by omega)
  have htwo : NearField (s.curr.start + s.i + 1) := hnear (s.i + 1) (by omega)
  split
  · rename_i hcode
    refine ⟨by simp [hone, htwo], ?_⟩
    split
    · exact .bogus
    · exact .found hcode (by omega)
  split
  · exact ⟨by simp [hone], .further (by omega) (by omega)⟩
  split
  · split
    · exact ⟨by simp [hone, htwo], .bogus⟩
    · have hover : NearField (s.curr.start + s.i + 3) := hnear (s.i + 3) (by omega)
      have hfirst : NearField (s.curr.start + 1) := hnear 1 (by omega)
      exact ⟨by simp [hone, htwo, hover, hfirst], .further (by omega) (by omega)⟩
  split
  · refine ⟨by simp [hone], ?_⟩
    split
    · rename_i hfile
      rw [show ({ s with curr := Field.file, i := 0 } : Scan) = ⟨.file, 0, s.overFlag⟩ from rfl]
      exact .file hfile.1
    · split
      · rename_i hsname
        exact .sname hsname.1
      · exact .done
  · exact ⟨by simp [hone, htwo], .further (by omega) (by omega)⟩

theorem getOptionRound_next (h : getOptionRound mem code s = (reads, .next s')) :
    s'.left < s.left := by
  have hdoes := (getOptionRound_does mem code s).2
  rw [h] at hdoes
  cases hdoes with
  | further hi hlt =>
    simp only [Scan.left]
    omega
  | file hcurr => simp only [Scan.left, hcurr, Field.length]; omega
  | sname hcurr => simp only [Scan.left, hcurr, Field.length]; omega

theorem getOptionRound_found (h : getOptionRound mem code s = (reads, .found ptr)) :
    DataAt mem code ptr := by
  have hdoes := (getOptionRound_does mem code s).2
  rw [h] at hdoes
  cases hdoes with
  | found hcode hlen =>
    refine ⟨s.curr, by omega, hcode, ?_⟩
    rw [show s.curr.start + s.i + 2 - 1 = s.curr.start + s.i + 1 by omega]
    omega

theorem getOptionLoop_reads (mem : Bytes) (code : UInt8) (rounds : Nat) (s : Scan) :
    ∀ a ∈ (getOptionLoop mem code rounds s).1, NearField a := by
  induction rounds generalizing s with
  | zero => simp [getOptionLoop]
  | succ rounds ih =>
    intro a ha
    have hround := (getOptionRound_does mem code s).1 a
    rw [getOptionLoop] at ha
    split at ha <;> rename_i reads _ heq <;> rw [heq] at hround
    · exact hround ha
    · exact hround ha
    · exact hround ha
    · rcases List.mem_append.mp ha with ha | ha
      · exact hround ha
      · exact ih _ a ha

theorem getOptionLoop_ends (h : s.left ≤ rounds) : ∃ p,
    (getOptionLoop mem code rounds s).2 = .ret p ∧ ∀ ptr, p = some ptr → DataAt mem code ptr := by
  induction rounds generalizing s with
  | zero => simp [Scan.left] at h
  | succ rounds ih =>
    rw [getOptionLoop]
    split <;> rename_i heq
    · refine ⟨_, rfl, fun ptr hptr => ?_⟩
      cases hptr
      exact getOptionRound_found heq
    · exact ⟨_, rfl, nofun⟩
    · exact ⟨_, rfl, nofun⟩
    · have hlt := getOptionRound_next heq
      exact ih (by omega)

theorem getOptionScan_data (mem : Bytes) (code : UInt8) : ∃ p,
    (getOptionScan mem code).2 = .ret p ∧ ∀ ptr, p = some ptr → DataAt mem code ptr :=
  getOptionLoop_ends (by decide)

theorem getOptionScan_ends (mem : Bytes) (code : UInt8) :
    (getOptionScan mem code).2 = .ret (getOption mem code) := by
  obtain ⟨p, hp, -⟩ := getOptionScan_data mem code
  rw [getOption, hp]

/-- `get_option` ends for every packet, reads no byte further than two behind the fields that hold
options, and finds an option that is in its field as a whole. -/
theorem getOption_bounded (mem : Bytes) (code : UInt8) :
    (getOptionScan mem code).2 ≠ .running ∧
    (∀ a ∈ (getOptionScan mem code).1, NearField a) ∧
    ∀ ptr, getOption mem code = some ptr → DataAt mem code ptr := by
  have hends := getOptionScan_ends mem code
  refine ⟨by rw [hends]; exact nofun, getOptionLoop_reads mem code _ _, ?_⟩
  obtain ⟨p, hp, hdata⟩ := getOptionScan_data mem code
  intro ptr hptr
  have hret := hends.symm.trans hp
  cases hret
  exact hdata ptr hptr

end

/-! ## Fields that hold options only -/

/-- The codes that are no options of their own for the search. -/
def OptionString.Plain (o : OptionString) : Prop :=
  o.code ≠ dhcpPadding ∧ o.code ≠ dhcpOptionOver ∧ o.code ≠ dhcpEnd

def optionBytes (os : List OptionString) : List UInt8 := os.flatMap OptionString.bytes

/-- The field at `start` begins with these options and the end option. -/
structure Area (mem : Bytes) (start : Nat) (os : List OptionString) : Prop where
  begins : Begins mem start (optionBytes os ++ [dhcpEnd])
  plain : ∀ o ∈ os, o.Plain
  fits : (optionBytes os).length < 308

/-- What `add_option_string` leaves of an option behind others: it takes it when there is room. -/
def addedOption (os : List OptionString) (o : OptionString) : List OptionString :=
  if (optionBytes os).length + o.data.length + 2 + 1 ≥ 308 then os else os ++ [o]

section

variable {mem : Bytes} {code : UInt8} {a start dest rounds i : Nat} {xs ys : List UInt8}
  {o : OptionString} {os : List OptionString}

theorem OptionString.len_toNat (o : OptionString) : o.len.toNat = o.data.length := by
  have := o.length_lt
  simp [OptionString.len]
  omega

theorem OptionString.length_bytes (o : OptionString) : o.bytes.length = o.data.length + 2 := by
  simp [OptionString.bytes]

@[simp] theorem optionBytes_nil : optionBytes [] = [] := rfl

@[simp] theorem optionBytes_cons : optionBytes (o :: os) = o.bytes ++ optionBytes os := rfl

@[simp] theorem optionBytes_append {os' : List OptionString} :
    optionBytes (os ++ os') = optionBytes os ++ optionBytes os' := by
  simp [optionBytes]

theorem area_empty (h : mem start = dhcpEnd) : Area mem start [] := ⟨by simp [h], nofun, by simp⟩

theorem Area.congr {mem' : Bytes} (h : Area mem start os)
    (heq : ∀ i < 308, mem' (dest + i) = mem (start + i)) : Area mem' dest os := by
  refine ⟨(begins_congr fun i hi => heq i ?_).mpr h.begins, h.plain, h.fits⟩
  have := h.fits
  simp only [List.length_append, List.length_singleton] at hi
  omega

/-- `found` is where the data of the option are, if there is one. -/
def FoundAt (mem : Bytes) (found : Option Nat) : Option OptionString → Prop
  | some o => ∃ ptr, found = some ptr ∧ 0 < ptr ∧ mem (ptr - 1) = o.len ∧ Begins mem ptr o.data
  | none => found = none

/-- The search in the options of a field, of which some are behind it already. -/
theorem getOptionLoop_area (hcode : code ≠ dhcpPadding ∧ code ≠ dhcpEnd)
    (hbegins : Begins mem (196 + i) (optionBytes os ++ [dhcpEnd])) (hplain : ∀ o ∈ os, o.Plain)
    (hfits : i + (optionBytes os).length < 308) (hrounds : os.length < rounds) :
    ∃ found, (getOptionLoop mem code rounds ⟨.option, i, 0⟩).2 = .ret found ∧
      FoundAt mem found (os.find? (·.code = code)) := by
  induction os generalizing i rounds with
  | nil =>
    obtain ⟨rounds, rfl⟩ := Nat.exists_eq_add_one.mpr hrounds
    have hend : mem (196 + i) = dhcpEnd := by simpa using hbegins
    have hi : ¬308 ≤ i := by simpa using hfits
    have hne : ¬dhcpEnd = code := fun h => hcode.2 h.symm
    refine ⟨none, ?_, rfl⟩
    simp [getOptionLoop, getOptionRound, Field.start, Field.length, hend, hi, hne,
      show ¬dhcpEnd = dhcpPadding by decide, show ¬dhcpEnd = dhcpOptionOver by decide]
  | cons o os ih =>
    obtain ⟨rounds, rfl⟩ := Nat.exists_eq_add_one.mpr (Nat.zero_lt_of_lt hrounds)
    rw [optionBytes_cons, List.append_assoc, begins_append, o.length_bytes] at hbegins
    obtain ⟨⟨hmem, hlen, hdata⟩, hrest⟩ := hbegins
    have hlenNat := o.len_toNat
    simp only [optionBytes_cons, List.length_append, o.length_bytes] at hfits
    have hi : ¬308 ≤ i := by omega
    have hroom : ¬308 ≤ i + 1 + o.data.length := by omega
    by_cases hfound : o.code = code
    · subst hfound
      rw [List.find?_cons_of_pos (by simp)]
      refine ⟨some (196 + i + 2), ?_, _, rfl, by omega, hlen, hdata⟩
      simp [getOptionLoop, getOptionRound, Field.start, Field.length, hmem, hlen, hlenNat, hi, hroom]
    · obtain ⟨hpad, hover, hend⟩ := hplain o (by simp)
      rw [List.find?_cons_of_neg (by simpa using hfound)]
      have hstep : (getOptionLoop mem code (rounds + 1) ⟨.option, i, 0⟩).2 =
          (getOptionLoop mem code rounds ⟨.option, i + (o.data.length + 2), 0⟩).2 := by
        simp [getOptionLoop, getOptionRound, Field.start, Field.length, hmem, hlen, hlenNat, hi,
          hfound, hpad, hover, hend]
      rw [hstep]
      rw [show 196 + i + (o.data.length + 2) = 196 + (i + (o.data.length + 2)) by omega] at hrest
      exact ih hrest (fun o ho => hplain o (by simp [ho])) (by omega) (by simpa using hrounds)

theorem length_le_optionBytes (os : List OptionString) : os.length ≤ (optionBytes os).length := by
  induction os with
  | nil => simp
  | cons o os ih =>
    simp only [optionBytes_cons, List.length_append, o.length_bytes, List.length_cons]
    omega

/-- What `get_option` finds in a packet whose option field holds options only. -/
theorem Area.get (h : Area mem Field.option.start os)
    (hcode : code ≠ dhcpPadding ∧ code ≠ dhcpEnd) :
    FoundAt mem (getOption mem code) (os.find? (·.code = code)) := by
  have hrounds : os.length < getOptionRounds := by
    have := length_le_optionBytes os
    have := h.fits
    rw [getOptionRounds]
    omega
  obtain ⟨found, hloop, hdata⟩ :=
    getOptionLoop_area (i := 0) hcode h.begins h.plain (by simpa using h.fits) hrounds
  rw [getOption, getOptionScan, hloop]
  exact hdata

theorem endOptionLoop_area (hbegins : Begins mem i (optionBytes os ++ [dhcpEnd]))
    (hplain : ∀ o ∈ os, o.Plain) (hrounds : os.length < rounds) :
    endOptionLoop mem rounds i = some (i + (optionBytes os).length) := by
  induction os generalizing i rounds with
  | nil =>
    obtain ⟨rounds, rfl⟩ := Nat.exists_eq_add_one.mpr hrounds
    have hend : mem i = dhcpEnd := by simpa using hbegins
    simp [endOptionLoop, hend]
  | cons o os ih =>
    obtain ⟨rounds, rfl⟩ := Nat.exists_eq_add_one.mpr (Nat.zero_lt_of_lt hrounds)
    rw [optionBytes_cons, List.append_assoc, begins_append, o.length_bytes] at hbegins
    obtain ⟨⟨hmem, hlen, -⟩, hrest⟩ := hbegins
    obtain ⟨hpad, -, hend⟩ := hplain o (by simp)
    rw [endOptionLoop, hmem, if_neg hend, if_neg hpad, hlen, o.len_toNat,
      ih hrest (fun o ho => hplain o (by simp [ho])) (by simpa using hrounds)]
    simp only [optionBytes_cons, List.length_append, o.length_bytes]
    congr 1
    omega

/-- `add_option_string` on a field that holds options only. -/
theorem Area.add (h : Area mem 0 os) (ho : o.Plain) : ∃ mem', addOptionString mem o = some mem' ∧
    Area mem' 0 (addedOption os o) := by
  have hrounds : os.length < 309 := by
    have := length_le_optionBytes os
    have := h.fits
    omega
  have hend := endOptionLoop_area h.begins h.plain hrounds
  simp only [Nat.zero_add] at hend
  simp only [addOptionString, addedOption, hend, Option.map_some, o.len_toNat]
  split
  · exact ⟨mem, rfl, h⟩
  · rename_i hroom
    refine ⟨_, rfl, ?_, ?_, ?_⟩
    · have hold := (begins_append.mp h.begins).1
      rw [optionBytes_append, List.append_assoc, begins_append, begins_memcpy_before (by simp)]
      refine ⟨hold, ?_⟩
      simp only [optionBytes_cons, optionBytes_nil, List.append_nil, Nat.zero_add]
      exact begins_memcpy_self
    · intro o' ho'
      rcases List.mem_append.mp ho' with ho' | ho'
      · exact h.plain o' ho'
      · rwa [List.mem_singleton.mp ho']
    · simp [o.length_bytes]
      omega

end

end Dhcp
end XR806

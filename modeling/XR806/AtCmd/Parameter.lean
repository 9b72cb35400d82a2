import Mathlib.Tactic

/-!
# XR806.AtCmd.Parameter

The parameters of an AT command. A pointer into the command line is the part of the buffer from it
on, and every getter records what it reads of the line, where it stores in `strbuf`, and how much of
the destination it writes.

A table whose limits fit `strbuf` and the fields, with a hex parameter only at its end, is parsed
inside the line for every line (`paraLoop_safe`). A text parameter with a limit above `strbuf` is
safe exactly for texts that fit both buffers (`getTextPara_safe_iff`).
-/

namespace XR806
namespace AtCmd

def atParaMaxSize : Nat := 64

def atSeparator : UInt8 := 0x2c
def atCr : UInt8 := 0x0d
def atLf : UInt8 := 0x0a
def atColon : UInt8 := 0x3a
def atDot : UInt8 := 0x2e
def atEqu : UInt8 := 0x3d
def atQuo : UInt8 := 0x22
def atQue : UInt8 := 0x3f

/-- `AT_END_TYPE`. -/
def aetPara : Nat := atParaMaxSize <<< 2
def aetLine : Nat := atParaMaxSize <<< 3

def sizeLimitMask : Nat := (atParaMaxSize <<< 1) - 1

def sizeLimit (opt : Nat) : Nat := opt &&& sizeLimitMask

/-- `AT_PARA_TYPE`. -/
inductive ParaType
  | text
  | hex
  | di
  | hi
  | ip
deriving DecidableEq, Repr

/-- `at_para_descriptor_t`, with the size of the field that `pvar` points to. -/
structure Descriptor where
  pt : ParaType
  size : Nat
  option : Nat
deriving DecidableEq, Repr

inductive Access
  | read (para : List UInt8)
  | strbuf (i : Nat)
  | pvar (size n : Nat)
deriving DecidableEq, Repr

/-- With `behind` the buffer behind the line: a read is of the line, a store is in `strbuf`, and the
bytes written are in the field. -/
def Access.Inside (behind : List UInt8) : Access → Prop
  | .read para => behind.length < para.length
  | .strbuf i => i < atParaMaxSize
  | .pvar size n => n ≤ size

instance (behind : List UInt8) (a : Access) : Decidable (a.Inside behind) := by
  cases a <;> unfold Access.Inside <;> infer_instance

def Safe (behind : List UInt8) (log : List Access) : Prop := ∀ a ∈ log, a.Inside behind

instance (behind : List UInt8) (log : List Access) : Decidable (Safe behind log) :=
  inferInstanceAs (Decidable (∀ a ∈ log, a.Inside behind))

/-! ## The getters -/

def isHex (ch : UInt8) : Bool :=
  (0x30 ≤ ch && ch ≤ 0x39) || (0x41 ≤ ch && ch ≤ 0x46) || (0x61 ≤ ch && ch ≤ 0x66)

def hexToNum (ch : UInt8) : UInt8 :=
  if 0x30 ≤ ch ∧ ch ≤ 0x39 then ch - 0x30
  else if 0x41 ≤ ch ∧ ch ≤ 0x46 then ch - 0x41 + 10
  else if 0x61 ≤ ch ∧ ch ≤ 0x66 then ch - 0x61 + 10
  else 0xff

def isDec (ch : UInt8) : Bool := 0x30 ≤ ch && ch ≤ 0x39

/-- `atoi` of a string of digits, which stops at the largest `int`. -/
def atAtoi (str : List UInt8) : Nat :=
  min (str.foldl (fun n ch => n * 10 + (ch - 0x30).toNat) 0) (2 ^ 31 - 1)

/-- How a loop over the parameter ended: the pointer, what `strbuf` holds, and the digits in
`hexbuf` or `decbuf`. -/
structure Scan where
  para : List UInt8
  out : List UInt8
  digits : List UInt8
  overFlag : Bool
  error : Bool
  endType : Nat
  log : List Access

def Scan.after (log : List Access) (s : Scan) : Scan := { s with log := log ++ s.log }

section
variable (log : List Access) (s : Scan)

@[simp] theorem Scan.after_para : (s.after log).para = s.para := rfl
@[simp] theorem Scan.after_out : (s.after log).out = s.out := rfl
@[simp] theorem Scan.after_digits : (s.after log).digits = s.digits := rfl
@[simp] theorem Scan.after_overFlag : (s.after log).overFlag = s.overFlag := rfl
@[simp] theorem Scan.after_error : (s.after log).error = s.error := rfl
@[simp] theorem Scan.after_endType : (s.after log).endType = s.endType := rfl
@[simp] theorem Scan.after_log : (s.after log).log = log ++ s.log := rfl

end

/-- The loop ended at its limit or with a read past the buffer. -/
def Scan.stop (para out digits : List UInt8) (log : List Access) : Scan :=
  { para, out, digits, overFlag := false, error := false, endType := 0, log }

def Scan.fail (para out digits : List UInt8) : Scan :=
  { para, out, digits, overFlag := false, error := true, endType := 0, log := [] }

structure End where
  para : List UInt8
  overFlag : Bool
  endType : Nat
  log : List Access

def Scan.ended (e : End) (out digits : List UInt8) : Scan :=
  { para := e.para, out, digits, overFlag := e.overFlag, error := false, endType := e.endType,
    log := e.log }

/-- The three ends that all parameters have: a separator, `<CR>` with `<LF>` behind it or without,
and `<LF>`. -/
def paraEnd (b : UInt8) (para : List UInt8) : Option End :=
  if b = atSeparator then some { para, overFlag := false, endType := aetPara, log := [] }
  else if b = atCr then
    some { para := if para.head? = some atLf then para.tail else para, overFlag := true,
           endType := aetLine, log := [.read para] }
  else if b = atLf then some { para, overFlag := true, endType := aetLine, log := [] }
  else none

/-- What the loops share: the check of the limit, the read of the byte at the pointer, and the three
ends. `other` is what a loop does with another byte. -/
def scanByte (limit : Nat) (b : UInt8) (para out digits : List UInt8) (other : Scan) : Scan :=
  if out.length < limit then
    .after [.read (b :: para)] <|
      match paraEnd b para with
      | some e => .ended e out digits
      | none => other
  else .stop (b :: para) out digits []

/-- The buffer is at its end. -/
def scanNil (limit : Nat) (out digits : List UInt8) : Scan :=
  .stop [] out digits (if out.length < limit then [.read []] else [])

def textLoop (limit : Nat) : List UInt8 → List UInt8 → Scan
  | [], out => scanNil limit out []
  | b :: para, out =>
    scanByte limit b para out [] <|
      if b = atQuo then textLoop limit para out
      else .after [.strbuf out.length] (textLoop limit para (out ++ [b]))

def hexByte (hexbuf : List UInt8) : UInt8 :=
  (hexToNum (hexbuf.getD 0 0) <<< 4) + hexToNum (hexbuf.getD 1 0)

def hexLoop (limit : Nat) : List UInt8 → List UInt8 → List UInt8 → Scan
  | [], out, hexbuf => scanNil limit out hexbuf
  | b :: para, out, hexbuf =>
    scanByte limit b para out hexbuf <|
      if b = atColon then
        .ended { para := b :: para, overFlag := false, endType := aetPara, log := [] } out hexbuf
      else if b = atQuo then hexLoop limit para out hexbuf
      else if hexbuf.length < 2 then
        if isHex b then hexLoop limit para out (hexbuf ++ [b])
        else .fail (b :: para) out hexbuf
      else
        -- the two digits are stored, and `b`, which is not an end, is looked at once more
        .after [.strbuf out.length] <|
          if out.length + 1 < limit then
            .after [.read (b :: para)] <|
              if isHex b then hexLoop limit para (out ++ [hexByte hexbuf]) [b]
              else .fail (b :: para) (out ++ [hexByte hexbuf]) []
          else .stop (b :: para) (out ++ [hexByte hexbuf]) [] []

/-- The limit of the loops over an integer. -/
def intLimit : Nat := 10 + 1

def diLoop : List UInt8 → List UInt8 → Scan
  | [], out => scanNil intLimit out []
  | b :: para, out =>
    scanByte intLimit b para out [] <|
      if b = atColon then .ended { para, overFlag := true, endType := aetLine, log := [] } out []
      else if isDec b then .after [.strbuf out.length] (diLoop para (out ++ [b]))
      else .fail (b :: para) out []

def hiLoop : List UInt8 → List UInt8 → Scan
  | [], out => scanNil intLimit out []
  | b :: para, out =>
    scanByte intLimit b para out [] <|
      if b = atQuo then hiLoop para out
      else if isHex b then .after [.strbuf out.length] (hiLoop para (out ++ [b]))
      else .fail (b :: para) out []

def ipLimit : Nat := 4

/-- The digits of one number of the address are one to three, and the number is a byte. -/
def ipNum (decbuf : List UInt8) : Option UInt8 :=
  if 1 ≤ decbuf.length ∧ decbuf.length ≤ 3 ∧ atAtoi decbuf ≤ 255 then
    some (UInt8.ofNat (atAtoi decbuf))
  else none

def ipLoop : List UInt8 → List UInt8 → List UInt8 → Scan
  | [], out, decbuf => scanNil ipLimit out decbuf
  | b :: para, out, decbuf =>
    scanByte ipLimit b para out decbuf <|
      if b = atQuo then ipLoop para out decbuf
      else if b = atDot then
        match ipNum decbuf with
        | some num => .after [.strbuf out.length] (ipLoop para (out ++ [num]) [])
        | none => .fail para out []
      else if isDec b then
        if decbuf.length < 3 then ipLoop para out (decbuf ++ [b])
        else .fail (b :: para) out decbuf
      else .fail (b :: para) out decbuf

/-- What a getter returns, with the bytes that it has put into `strbuf`. -/
structure Got where
  para : List UInt8
  value : List UInt8
  overFlag : Bool
  error : Bool
  log : List Access

/-- `strbuf[cnt++] = b` behind the loop. -/
def Scan.put (s : Scan) (b : UInt8) : Scan :=
  { s with out := s.out ++ [b], log := s.log ++ [.strbuf s.out.length] }

/-- The end of a getter: without an error it makes the stores `log`. `strbuf[0]` is cleared before
the loop. -/
def Scan.got (s : Scan) (para : List UInt8) (ok : Bool) (log : List Access) : Got :=
  { para, value := s.out, overFlag := s.overFlag, error := !ok,
    log := .strbuf 0 :: (s.log ++ if ok then log else []) }

def getTextPara (size opt : Nat) (para : List UInt8) : Got :=
  let limit := sizeLimit opt
  let s := textLoop limit para []
  let cnt := s.out.length
  s.got s.para (s.endType &&& opt ≠ 0 ∧ 0 < cnt ∧ cnt < limit)
    [.strbuf cnt, .pvar size (cnt + 1)]

def getHexPara (size opt : Nat) (para : List UInt8) : Got :=
  let limit := sizeLimit opt
  let s := hexLoop limit para [] []
  if s.endType &&& opt ≠ 0 ∧ s.digits.length = 2 then
    -- one more byte is skipped, also where the loop has skipped the separator
    let s := s.put (hexByte s.digits)
    s.got s.para.tail (!s.error) [.pvar size limit, .pvar size s.out.length]
  else s.got s.para false []

def getDiPara (size opt : Nat) (para : List UInt8) : Got :=
  let s := diLoop para []
  let cnt := s.out.length
  s.got s.para (s.endType &&& opt ≠ 0 ∧ s.error = false ∧ 0 < cnt ∧ cnt < intLimit)
    [.strbuf cnt, .pvar size 4]

def getHiPara (size opt : Nat) (para : List UInt8) : Got :=
  let s := hiLoop para []
  let cnt := s.out.length
  s.got s.para (s.endType &&& opt ≠ 0 ∧ s.error = false ∧ 0 < cnt ∧ cnt < intLimit)
    [.strbuf cnt, .pvar size 4]

def getIpPara (size opt : Nat) (para : List UInt8) : Got :=
  let s := ipLoop para [] []
  if s.endType &&& opt ≠ 0 then
    match ipNum s.digits with
    | some num =>
      let s := s.put num
      s.got s.para (s.error = false ∧ s.out.length = ipLimit)
        [.pvar size ipLimit, .pvar size s.out.length]
    | none => s.got s.para false []
  else s.got s.para false []

def getPara (d : Descriptor) (para : List UInt8) : Got :=
  match d.pt with
  | .text => getTextPara d.size d.option para
  | .hex => getHexPara d.size d.option para
  | .di => getDiPara d.size d.option para
  | .hi => getHiPara d.size d.option para
  | .ip => getIpPara d.size d.option para

/-- What `at_get_parameters` leaves: `paracnt` is the number of the values. -/
structure Params where
  para : List UInt8
  values : List (List UInt8)
  error : Bool
  log : List Access

def paraLoop : List Descriptor → List UInt8 → Params
  | [], para => { para, values := [], error := false, log := [] }
  | d :: list, para =>
    let g := getPara d para
    if g.error then { para := g.para, values := [], error := true, log := g.log }
    else if g.overFlag then { para := g.para, values := [g.value], error := false, log := g.log }
    else
      let p := paraLoop list g.para
      { p with values := g.value :: p.values, log := g.log ++ p.log }

def atGetNewline (para : List UInt8) : Params :=
  { para, values := [],
    error := ¬(para.head? = some atLf ∨ para.head? = some atCr),
    log := .read para :: if para.head? = some atCr then [.read para.tail] else [] }

def atGetParameters (list : List Descriptor) (para : List UInt8) : Params :=
  if list = [] then atGetNewline para else paraLoop list para

/-! ## Inside the line -/

/-- The pointer is in the line, at its terminator or before it. The byte that the parser has put
behind a `<CR>` belongs to the terminator: it is the `<LF>`, or the byte that came instead. -/
inductive InLine (behind : List UInt8) : List UInt8 → Prop
  | lf : InLine behind (atLf :: behind)
  | cr (next : UInt8) : InLine behind (atCr :: next :: behind)
  | cons {b : UInt8} {para : List UInt8} : b ≠ atCr → b ≠ atLf → InLine behind para →
    InLine behind (b :: para)

variable {behind para : List UInt8}

theorem InLine.inside (h : InLine behind para) : behind.length < para.length := by
  induction h with
  | lf => simp
  | cr next => simp
  | cons _ _ _ ih => simp; omega

@[simp] theorem Safe.nil : Safe behind [] := by simp [Safe]

@[simp] theorem safe_cons {a : Access} {log : List Access} :
    Safe behind (a :: log) ↔ a.Inside behind ∧ Safe behind log := by
  simp [Safe]

@[simp] theorem safe_append {l₁ l₂ : List Access} :
    Safe behind (l₁ ++ l₂) ↔ Safe behind l₁ ∧ Safe behind l₂ := by
  simp [Safe, or_imp, forall_and]

@[simp] theorem read_inside : (Access.read para).Inside behind ↔ behind.length < para.length :=
  Iff.rfl

@[simp] theorem strbuf_inside {i : Nat} : (Access.strbuf i).Inside behind ↔ i < atParaMaxSize :=
  Iff.rfl

@[simp] theorem pvar_inside {size n : Nat} : (Access.pvar size n).Inside behind ↔ n ≤ size :=
  Iff.rfl

/-- What a loop that stays in the line leaves: the pointer is in the line unless the line is over,
and no more than `limit` bytes are stored, fewer where the loop has seen an end. -/
structure Scan.Stays (behind : List UInt8) (limit : Nat) (s : Scan) : Prop where
  safe : Safe behind s.log
  para : s.overFlag = false → InLine behind s.para
  cnt : s.out.length ≤ limit
  ended : s.endType ≠ 0 → s.out.length < limit ∧ s.error = false

theorem Scan.Stays.after {limit : Nat} {s : Scan} {log : List Access} (h : s.Stays behind limit)
    (hl : Safe behind log) : (s.after log).Stays behind limit :=
  ⟨safe_append.mpr ⟨hl, h.safe⟩, h.para, h.cnt, h.ended⟩

theorem Scan.Stays.stop {limit : Nat} {out digits : List UInt8} (h : InLine behind para)
    (hc : out.length ≤ limit) : (Scan.stop para out digits []).Stays behind limit :=
  ⟨.nil, fun _ => h, hc, fun he => absurd rfl he⟩

theorem Scan.Stays.fail {limit : Nat} {out digits : List UInt8} (h : InLine behind para)
    (hc : out.length ≤ limit) : (Scan.fail para out digits).Stays behind limit :=
  ⟨.nil, fun _ => h, hc, fun he => absurd rfl he⟩

/-- An end keeps to the line. -/
structure End.Stays (behind : List UInt8) (e : End) : Prop where
  safe : Safe behind e.log
  para : e.overFlag = false → InLine behind e.para

theorem Scan.Stays.ended_of {limit : Nat} {e : End} {out digits : List UInt8} (h : e.Stays behind)
    (hc : out.length < limit) : (Scan.ended e out digits).Stays behind limit :=
  ⟨h.safe, h.para, hc.le, fun _ => ⟨hc, rfl⟩⟩

/-- The two cases of a byte of the line: it is one of the three ends, or no end and not the last. -/
theorem InLine.step {b : UInt8} {para : List UInt8} (h : InLine behind (b :: para)) :
    (∃ e, paraEnd b para = some e ∧ e.Stays behind) ∨
    (paraEnd b para = none ∧ InLine behind para) := by
  generalize hl : b :: para = line at h
  cases h with
  | lf =>
    cases hl
    exact .inl ⟨_, rfl, .nil, fun ho => by simp at ho⟩
  | cr next =>
    cases hl
    refine .inl ⟨_, rfl, ?_, fun ho => by simp at ho⟩
    simp [Safe, Access.Inside]
  | cons hcr hlf hp =>
    cases hl
    by_cases hs : b = atSeparator
    · exact .inl ⟨_, if_pos hs, .nil, fun _ => hp⟩
    · exact .inr ⟨by simp [paraEnd, hs, hcr, hlf], hp⟩

theorem not_inLine_nil : ¬InLine behind [] := nofun

theorem Scan.Stays.scanByte {limit : Nat} {b : UInt8} {out digits : List UInt8} {other : Scan}
    (h : InLine behind (b :: para)) (hc : out.length ≤ limit)
    (hother : InLine behind para → out.length < limit → other.Stays behind limit) :
    (scanByte limit b para out digits other).Stays behind limit := by
  unfold AtCmd.scanByte
  split
  · rename_i hlt
    refine .after ?_ (by simpa using h.inside)
    rcases h.step with ⟨e, he, hs⟩ | ⟨he, hp⟩
    · rw [he]
      exact .ended_of hs hlt
    · rw [he]
      exact hother hp hlt
  · exact .stop h hc

/-- A byte is stored in `strbuf` below the limit. -/
theorem Scan.Stays.store {limit : Nat} {out : List UInt8} {s : Scan} (h : s.Stays behind limit)
    (hl : limit ≤ atParaMaxSize) (hlt : out.length < limit) :
    (s.after [.strbuf out.length]).Stays behind limit :=
  h.after (by simpa using Nat.lt_of_lt_of_le hlt hl)

theorem textLoop_stays {limit : Nat} (hl : limit ≤ atParaMaxSize) (para : List UInt8)
    (h : InLine behind para) : ∀ out : List UInt8, out.length ≤ limit →
      (textLoop limit para out).Stays behind limit := by
  induction para with
  | nil => exact absurd h not_inLine_nil
  | cons b para ih =>
    intro out hc
    refine .scanByte h hc fun hp hlt => ?_
    split
    · exact ih hp out hc
    · exact (ih hp _ (by simpa using hlt)).store hl hlt

theorem hexLoop_stays {limit : Nat} (hl : limit ≤ atParaMaxSize) (para : List UInt8)
    (h : InLine behind para) : ∀ out hexbuf : List UInt8, out.length ≤ limit →
      (hexLoop limit para out hexbuf).Stays behind limit := by
  induction para with
  | nil => exact absurd h not_inLine_nil
  | cons b para ih =>
    intro out hexbuf hc
    refine .scanByte h hc fun hp hlt => ?_
    have hput : (out ++ [hexByte hexbuf]).length ≤ limit := by simpa using hlt
    split
    · exact .ended_of ⟨.nil, fun _ => h⟩ hlt
    split
    · exact ih hp out hexbuf hc
    split
    · split
      · exact ih hp out _ hc
      · exact .fail h hc
    · refine .store ?_ hl hlt
      split
      · refine .after ?_ (by simpa using h.inside)
        split
        · exact ih hp _ _ hput
        · exact .fail h hput
      · exact .stop h hput

theorem intLimit_le : intLimit ≤ atParaMaxSize := by decide

theorem diLoop_stays (para : List UInt8) (h : InLine behind para) :
    ∀ out : List UInt8, out.length ≤ intLimit → (diLoop para out).Stays behind intLimit := by
  induction para with
  | nil => exact absurd h not_inLine_nil
  | cons b para ih =>
    intro out hc
    refine .scanByte h hc fun hp hlt => ?_
    split
    · exact .ended_of ⟨.nil, fun ho => by simp at ho⟩ hlt
    split
    · exact (ih hp _ (by simpa using hlt)).store intLimit_le hlt
    · exact .fail h hc

theorem hiLoop_stays (para : List UInt8) (h : InLine behind para) :
    ∀ out : List UInt8, out.length ≤ intLimit → (hiLoop para out).Stays behind intLimit := by
  induction para with
  | nil => exact absurd h not_inLine_nil
  | cons b para ih =>
    intro out hc
    refine .scanByte h hc fun hp hlt => ?_
    split
    · exact ih hp out hc
    split
    · exact (ih hp _ (by simpa using hlt)).store intLimit_le hlt
    · exact .fail h hc

theorem ipLoop_stays (para : List UInt8) (h : InLine behind para) :
    ∀ out decbuf : List UInt8, out.length ≤ ipLimit →
      (ipLoop para out decbuf).Stays behind ipLimit := by
  induction para with
  | nil => exact absurd h not_inLine_nil
  | cons b para ih =>
    intro out decbuf hc
    refine .scanByte h hc fun hp hlt => ?_
    split
    · exact ih hp out decbuf hc
    split
    · split
      · exact (ih hp _ _ (by simpa using hlt)).store (by decide) hlt
      · exact .fail hp hc
    split
    · split
      · exact ih hp out _ hc
      · exact .fail h hc
    · exact .fail h hc

/-! ## Tables that fit -/

/-- The limit fits `strbuf` and the field, or the field is four bytes where the getter takes no
limit. -/
def Descriptor.fits (d : Descriptor) : Bool :=
  match d.pt with
  | .text | .hex => sizeLimit d.option ≤ atParaMaxSize ∧ sizeLimit d.option ≤ d.size
  | .di | .hi | .ip => 4 ≤ d.size

structure Got.Stays (behind : List UInt8) (g : Got) : Prop where
  safe : Safe behind g.log
  para : g.error = false → g.overFlag = false → InLine behind g.para

theorem safe_got {s : Scan} {para : List UInt8} {ok : Bool} {log : List Access}
    (h : Safe behind s.log) (hok : ok = true → Safe behind log) :
    Safe behind (s.got para ok log).log := by
  cases ok with
  | false => simpa [Scan.got, atParaMaxSize] using h
  | true => simpa [Scan.got, atParaMaxSize] using ⟨h, hok rfl⟩

theorem Scan.Stays.got {limit : Nat} {s : Scan} {ok : Bool} {log : List Access}
    (h : s.Stays behind limit) (hok : ok = true → Safe behind log) :
    (s.got s.para ok log).Stays behind :=
  ⟨safe_got h.safe hok, fun _ ho => h.para ho⟩

theorem Scan.Stays.put {limit : Nat} {s : Scan} {b : UInt8} (h : s.Stays behind limit)
    (hl : limit ≤ atParaMaxSize) (he : s.endType ≠ 0) :
    Safe behind (s.put b).log ∧ (s.put b).out.length ≤ limit ∧
      (s.overFlag = false → InLine behind s.para) := by
  have hlt := (h.ended he).1
  refine ⟨?_, by simpa [Scan.put] using hlt, h.para⟩
  simpa [Scan.put] using ⟨h.safe, Nat.lt_of_lt_of_le hlt hl⟩

theorem endType_ne_zero {e opt : Nat} (h : e &&& opt ≠ 0) : e ≠ 0 := by
  rintro rfl
  simp at h

theorem getTextPara_stays {size opt : Nat} (h : InLine behind para)
    (hl : sizeLimit opt ≤ atParaMaxSize) (hs : sizeLimit opt ≤ size) :
    (getTextPara size opt para).Stays behind := by
  refine (textLoop_stays hl para h [] (by simp)).got fun hok => ?_
  obtain ⟨-, -, hlt⟩ := of_decide_eq_true hok
  simpa using ⟨Nat.lt_of_lt_of_le hlt hl, Nat.le_trans hlt hs⟩

theorem getHexPara_safe {size opt : Nat} (h : InLine behind para)
    (hl : sizeLimit opt ≤ atParaMaxSize) (hs : sizeLimit opt ≤ size) :
    Safe behind (getHexPara size opt para).log := by
  have hst := hexLoop_stays hl para h [] [] (by simp)
  unfold getHexPara
  dsimp only
  split
  · rename_i he
    generalize hexByte _ = num
    obtain ⟨hsafe, hcnt, -⟩ := hst.put (b := num) hl (endType_ne_zero he.1)
    exact safe_got hsafe fun _ => by simpa using ⟨hs, Nat.le_trans hcnt hs⟩
  · exact safe_got hst.safe nofun

theorem getDiPara_stays {size opt : Nat} (h : InLine behind para) (hs : 4 ≤ size) :
    (getDiPara size opt para).Stays behind := by
  refine (diLoop_stays para h [] (by simp)).got fun hok => ?_
  obtain ⟨-, -, -, hlt⟩ := of_decide_eq_true hok
  simpa using ⟨Nat.lt_of_lt_of_le hlt intLimit_le, hs⟩

theorem getHiPara_stays {size opt : Nat} (h : InLine behind para) (hs : 4 ≤ size) :
    (getHiPara size opt para).Stays behind := by
  refine (hiLoop_stays para h [] (by simp)).got fun hok => ?_
  obtain ⟨-, -, -, hlt⟩ := of_decide_eq_true hok
  simpa using ⟨Nat.lt_of_lt_of_le hlt intLimit_le, hs⟩

theorem getIpPara_stays {size opt : Nat} (h : InLine behind para) (hs : 4 ≤ size) :
    (getIpPara size opt para).Stays behind := by
  have hst := ipLoop_stays para h [] [] (by simp)
  unfold getIpPara
  dsimp only
  split
  · rename_i he
    split
    · rename_i num _
      obtain ⟨hsafe, hcnt, hpara⟩ := hst.put (b := num) (by decide) (endType_ne_zero he)
      exact ⟨safe_got hsafe fun _ => by simpa using ⟨hs, Nat.le_trans hcnt hs⟩,
        fun _ ho => hpara ho⟩
    · exact hst.got nofun
  · exact hst.got nofun

theorem getPara_safe {d : Descriptor} (h : InLine behind para) (hd : d.fits = true) :
    Safe behind (getPara d para).log := by
  obtain ⟨pt, size, option⟩ := d
  cases pt with
  | text =>
    obtain ⟨hl, hs⟩ := of_decide_eq_true hd
    exact (getTextPara_stays h hl hs).safe
  | hex =>
    obtain ⟨hl, hs⟩ := of_decide_eq_true hd
    exact getHexPara_safe h hl hs
  | di => exact (getDiPara_stays h (of_decide_eq_true hd)).safe
  | hi => exact (getHiPara_stays h (of_decide_eq_true hd)).safe
  | ip => exact (getIpPara_stays h (of_decide_eq_true hd)).safe

/-- Every getter but that of a hex parameter leaves the pointer in the line. -/
theorem getPara_stays {d : Descriptor} (h : InLine behind para) (hd : d.fits = true)
    (hx : d.pt ≠ .hex) : (getPara d para).Stays behind := by
  obtain ⟨pt, size, option⟩ := d
  cases pt with
  | text =>
    obtain ⟨hl, hs⟩ := of_decide_eq_true hd
    exact getTextPara_stays h hl hs
  | hex => exact absurd rfl hx
  | di => exact getDiPara_stays h (of_decide_eq_true hd)
  | hi => exact getHiPara_stays h (of_decide_eq_true hd)
  | ip => exact getIpPara_stays h (of_decide_eq_true hd)

/-- All the parameters fit, and only the last one may be hex. -/
def tableFits : List Descriptor → Bool
  | [] => true
  | [d] => d.fits
  | d :: list => d.fits && d.pt ≠ .hex && tableFits list

theorem paraLoop_safe (list : List Descriptor) (hf : tableFits list = true) :
    ∀ para : List UInt8, InLine behind para → Safe behind (paraLoop list para).log := by
  induction list with
  | nil => exact fun _ _ => .nil
  | cons d list ih =>
    intro para h
    have hd : d.fits = true := by
      cases list <;> simp_all [tableFits]
    unfold paraLoop
    dsimp only
    split
    · exact getPara_safe h hd
    split
    · exact getPara_safe h hd
    · rename_i he ho
      cases list with
      | nil => simpa [paraLoop] using getPara_safe h hd
      | cons d' list =>
        have hx : d.pt ≠ .hex ∧ tableFits (d' :: list) = true := by simp_all [tableFits]
        have hg := getPara_stays h hd hx.1
        exact safe_append.mpr ⟨hg.safe, ih hx.2 _ (hg.para (by simpa using he) (by simpa using ho))⟩

/-! ## A text with a limit above `strbuf` -/

def isEnd (b : UInt8) : Bool := b = atSeparator ∨ b = atCr ∨ b = atLf

def unquoted (u : List UInt8) : List UInt8 := u.filter (· ≠ atQuo)

/-- The text of the parameter at the pointer: the bytes before its end without the quotes. -/
def textOf (para : List UInt8) : List UInt8 := unquoted (para.takeWhile (!isEnd ·))

/-- The end of the parameter at the pointer and what follows it. -/
def endOf (para : List UInt8) : List UInt8 := para.dropWhile (!isEnd ·)

theorem isEnd_quo : isEnd atQuo = false := by decide

@[simp] theorem unquoted_nil : unquoted [] = [] := rfl

@[simp] theorem unquoted_quo (u : List UInt8) : unquoted (atQuo :: u) = unquoted u := by
  simp [unquoted]

theorem unquoted_byte {x : UInt8} (hq : x ≠ atQuo) (u : List UInt8) :
    unquoted (x :: u) = x :: unquoted u := by
  simp [unquoted, hq]

theorem isEnd_of_paraEnd {b : UInt8} {rest : List UInt8} {e : End} (h : paraEnd b rest = some e) :
    isEnd b = true := by
  unfold paraEnd at h
  split_ifs at h <;> simp_all [isEnd]

theorem paraEnd_of_not_isEnd {b : UInt8} {rest : List UInt8} (h : isEnd b = false) :
    paraEnd b rest = none := by
  simp only [isEnd, decide_eq_false_iff_not, not_or] at h
  simp [paraEnd, h]

theorem paraEnd_endType {b : UInt8} {rest : List UInt8} {e : End} (h : paraEnd b rest = some e) :
    e.endType = aetPara ∨ e.endType = aetLine := by
  unfold paraEnd at h
  split_ifs at h <;> cases h <;> simp

/-- The pointer is at a parameter with an end. -/
theorem InLine.field (h : InLine behind para) : ∃ u b rest e, para = u ++ b :: rest ∧
    (∀ x ∈ u, isEnd x = false) ∧ paraEnd b rest = some e ∧ e.Stays behind := by
  induction para with
  | nil => exact absurd h not_inLine_nil
  | cons b para ih =>
    rcases h.step with ⟨e, he, hs⟩ | ⟨he, hp⟩
    · exact ⟨[], b, para, e, rfl, by simp, he, hs⟩
    · obtain ⟨u, b', rest, e, rfl, hu, hrest⟩ := ih hp
      have hb : isEnd b = false := by
        unfold paraEnd at he
        split_ifs at he
        simp_all [isEnd]
      exact ⟨b :: u, b', rest, e, rfl, by simpa [hb] using hu, hrest⟩

section
variable {u rest : List UInt8} {b : UInt8}

theorem textOf_field (hu : ∀ x ∈ u, isEnd x = false) (hb : isEnd b = true) :
    textOf (u ++ b :: rest) = unquoted u := by
  rw [textOf, List.takeWhile_append_of_pos (by simpa using hu)]
  simp [hb]

theorem endOf_field (hu : ∀ x ∈ u, isEnd x = false) (hb : isEnd b = true) :
    endOf (u ++ b :: rest) = b :: rest := by
  rw [endOf, List.dropWhile_append_of_pos (by simpa using hu)]
  simp [hb]

theorem InLine.drop (hu : ∀ x ∈ u, isEnd x = false) (h : InLine behind (u ++ b :: rest)) :
    InLine behind (b :: rest) := by
  induction u with
  | nil => exact h
  | cons x u ih =>
    have hx : isEnd x = false := hu x (by simp)
    rcases h.step with ⟨e, he, -⟩ | ⟨-, hp⟩
    · exact absurd (isEnd_of_paraEnd he) (by simp [hx])
    · exact ih (fun y hy => hu y (by simp [hy])) hp

theorem Scan.after_after (s : Scan) (l₁ l₂ : List Access) :
    (s.after l₂).after l₁ = s.after (l₁ ++ l₂) := by
  simp [Scan.after]

section
variable {limit : Nat} {out digits : List UInt8} {other : Scan}

theorem scanByte_end {e : End} (hlt : out.length < limit) (he : paraEnd b rest = some e) :
    scanByte limit b rest out digits other =
      .after [.read (b :: rest)] (.ended e out digits) := by
  rw [scanByte, if_pos hlt, he]

theorem scanByte_byte (hlt : out.length < limit) (hb : isEnd b = false) :
    scanByte limit b rest out digits other = .after [.read (b :: rest)] other := by
  rw [scanByte, if_pos hlt, paraEnd_of_not_isEnd hb]

theorem textLoop_end {e : End} (hlt : out.length < limit) (he : paraEnd b rest = some e) :
    textLoop limit (b :: rest) out = .after [.read (b :: rest)] (.ended e out []) :=
  scanByte_end hlt he

theorem textLoop_quo (hlt : out.length < limit) : textLoop limit (atQuo :: rest) out =
    .after [.read (atQuo :: rest)] (textLoop limit rest out) := by
  refine (scanByte_byte hlt isEnd_quo).trans ?_
  rw [if_pos rfl]

theorem textLoop_byte (hlt : out.length < limit) (hb : isEnd b = false) (hq : b ≠ atQuo) :
    textLoop limit (b :: rest) out =
      .after [.read (b :: rest), .strbuf out.length] (textLoop limit rest (out ++ [b])) := by
  refine (scanByte_byte hlt hb).trans ?_
  rw [if_neg hq, Scan.after_after]
  rfl

end

/-- A text that ends before the limit: what the loop leaves, and what it has done until its end. -/
theorem textLoop_field (limit : Nat) {e : End} (hu : ∀ x ∈ u, isEnd x = false)
    (he : paraEnd b rest = some e) (h : InLine behind (u ++ b :: rest)) : ∀ out : List UInt8,
      out.length + (unquoted u).length < limit →
        ∃ log, textLoop limit (u ++ b :: rest) out =
            .after log (.ended e (out ++ unquoted u) []) ∧
          (out.length + (unquoted u).length ≤ atParaMaxSize → Safe behind log) := by
  induction u with
  | nil =>
    intro out hlt
    refine ⟨[.read (b :: rest)], ?_, fun _ => by simpa using h.inside⟩
    rw [List.nil_append, textLoop_end (by simpa using hlt) he, unquoted_nil, List.append_nil]
  | cons x u ih =>
    intro out hlt
    have hx : isEnd x = false := hu x (by simp)
    have hux : ∀ y ∈ u, isEnd y = false := fun y hy => hu y (by simp [hy])
    have hin : behind.length < (x :: (u ++ b :: rest)).length := h.inside
    have hp : InLine behind (u ++ b :: rest) := by
      rcases h.step with ⟨e', he', -⟩ | ⟨-, hp⟩
      · exact absurd (isEnd_of_paraEnd he') (by simp [hx])
      · exact hp
    have hlim : out.length < limit := by omega
    by_cases hq : x = atQuo
    · subst hq
      rw [unquoted_quo] at hlt ⊢
      obtain ⟨log, heq, hsafe⟩ := ih hux hp out hlt
      refine ⟨.read (atQuo :: (u ++ b :: rest)) :: log, ?_, fun hle => safe_cons.mpr ⟨hin, hsafe hle⟩⟩
      rw [List.cons_append, textLoop_quo hlim, heq, Scan.after_after]
      rfl
    · rw [unquoted_byte hq, List.length_cons] at hlt
      rw [unquoted_byte hq]
      have hlen : (out ++ [x]).length = out.length + 1 := by simp
      obtain ⟨log, heq, hsafe⟩ := ih hux hp (out ++ [x]) (by omega)
      refine ⟨.read (x :: (u ++ b :: rest)) :: .strbuf out.length :: log, ?_, fun hle => ?_⟩
      · rw [List.cons_append, textLoop_byte hlim hx hq, heq, Scan.after_after, List.append_assoc]
        rfl
      · rw [List.length_cons] at hle
        refine safe_cons.mpr ⟨hin, safe_cons.mpr ⟨?_, hsafe (by omega)⟩⟩
        rw [strbuf_inside]
        omega

/-- A text stores each of its bytes below the limit. -/
theorem textLoop_stores (limit i : Nat) (rest : List UInt8) (hu : ∀ x ∈ u, isEnd x = false) :
    ∀ out : List UInt8, out.length ≤ i → i < out.length + (unquoted u).length → i < limit →
      .strbuf i ∈ (textLoop limit (u ++ b :: rest) out).log := by
  induction u with
  | nil => intro out h1 h2; simp at h2; omega
  | cons x u ih =>
    intro out h1 h2 h3
    have hx : isEnd x = false := hu x (by simp)
    have hux : ∀ y ∈ u, isEnd y = false := fun y hy => hu y (by simp [hy])
    have hlim : out.length < limit := by omega
    by_cases hq : x = atQuo
    · subst hq
      rw [unquoted_quo] at h2
      rw [List.cons_append, textLoop_quo hlim]
      exact List.mem_append_right _ (ih hux out h1 h2 h3)
    · rw [unquoted_byte hq, List.length_cons] at h2
      rw [List.cons_append, textLoop_byte hlim hx hq]
      have hlen : (out ++ [x]).length = out.length + 1 := by simp
      by_cases hi : i = out.length
      · subst hi
        exact List.mem_append_left _ (by simp)
      · exact List.mem_append_right _ (ih hux (out ++ [x]) (by omega) (by omega) h3)

/-- A descriptor that takes both ends. -/
def BothEnds (opt : Nat) : Prop := aetPara &&& opt ≠ 0 ∧ aetLine &&& opt ≠ 0

theorem BothEnds.end {opt : Nat} {e : End} (ho : BothEnds opt) (he : paraEnd b rest = some e) :
    e.endType &&& opt ≠ 0 := by
  rcases paraEnd_endType he with h | h <;> rw [h]
  · exact ho.1
  · exact ho.2

/-- A text that fits `strbuf`, where the limit is not the one of `strbuf`. -/
theorem getTextPara_field (size : Nat) {opt : Nat} {e : End} (ho : BothEnds opt)
    (hl : atParaMaxSize < sizeLimit opt) (hu : ∀ x ∈ u, isEnd x = false)
    (he : paraEnd b rest = some e) (h : InLine behind (u ++ b :: rest))
    (hes : e.Stays behind) (hfit : (unquoted u).length < atParaMaxSize) :
    let g := getTextPara size opt (u ++ b :: rest)
    g.para = e.para ∧ g.overFlag = e.overFlag ∧ g.value = unquoted u ∧
      (g.error = false ↔ unquoted u ≠ []) ∧
      (Safe behind g.log ↔ unquoted u ≠ [] → (unquoted u).length < size) := by
  obtain ⟨log, heq, hsafe⟩ := textLoop_field (sizeLimit opt) hu he h []
    (by simp only [List.length_nil]; omega)
  have hlog : Safe behind log := hsafe (by simp only [List.length_nil]; omega)
  have hends := ho.end he
  have hlt : (unquoted u).length < sizeLimit opt := by omega
  have hpos : 0 < (unquoted u).length ↔ unquoted u ≠ [] := List.length_pos_iff
  refine ⟨?_, ?_, ?_, ?_, ?_⟩
  · simp [getTextPara, heq, Scan.got, Scan.after, Scan.ended]
  · simp [getTextPara, heq, Scan.got, Scan.after, Scan.ended]
  · simp [getTextPara, heq, Scan.got, Scan.after, Scan.ended]
  · simp [getTextPara, heq, Scan.got, Scan.after, Scan.ended, hends, hlt, hpos]
  · by_cases hne : unquoted u = []
    · simp [getTextPara, heq, Scan.got, Scan.after, Scan.ended, hne, hlog, hes.safe, atParaMaxSize]
    · have hp : 0 < (unquoted u).length := hpos.mpr hne
      have h64 : (unquoted u).length < 64 := hfit
      simp [getTextPara, heq, Scan.got, Scan.after, Scan.ended, hne, hp, hlog, hes.safe,
        atParaMaxSize, hends, hlt, h64]

/-- A text of the size of `strbuf` or longer leaves it. -/
theorem getTextPara_overruns (size : Nat) {opt : Nat} {e : End} (ho : BothEnds opt)
    (hl : atParaMaxSize < sizeLimit opt) (hu : ∀ x ∈ u, isEnd x = false)
    (he : paraEnd b rest = some e) (h : InLine behind (u ++ b :: rest))
    (hlong : atParaMaxSize ≤ (unquoted u).length) :
    ¬Safe behind (getTextPara size opt (u ++ b :: rest)).log := by
  intro hs
  have hmem : Access.strbuf atParaMaxSize ∈ (getTextPara size opt (u ++ b :: rest)).log := by
    by_cases heq : (unquoted u).length = atParaMaxSize
    · -- the text just fills it, and its end is stored behind
      obtain ⟨log, hloop, -⟩ := textLoop_field (sizeLimit opt) hu he h []
        (by simp only [List.length_nil]; omega)
      have hpos : 0 < atParaMaxSize := by decide
      simp [getTextPara, hloop, Scan.got, Scan.after, Scan.ended, ho.end he, heq, hl, hpos]
    · have hst := textLoop_stores (sizeLimit opt) atParaMaxSize (b := b) rest hu []
        (by simp) (by simp only [List.length_nil]; omega) hl
      exact List.mem_cons_of_mem _ (List.mem_append_left _ hst)
  exact absurd (hs _ hmem) (by simp)

/-- A text with a limit above `strbuf` stays in it exactly when it fits. -/
theorem getTextPara_safe_iff (size : Nat) {opt : Nat} (ho : BothEnds opt)
    (hl : atParaMaxSize < sizeLimit opt) (h : InLine behind para) (hs : 0 < size) :
    Safe behind (getTextPara size opt para).log ↔
      (textOf para).length < atParaMaxSize ∧ (textOf para).length < size := by
  obtain ⟨u, b, rest, e, rfl, hu, he, hes⟩ := h.field
  rw [textOf_field hu (isEnd_of_paraEnd he)]
  by_cases hfit : (unquoted u).length < atParaMaxSize
  · rw [(getTextPara_field size ho hl hu he h hes hfit).2.2.2.2]
    by_cases hne : unquoted u = []
    · simp [hne, hs, atParaMaxSize]
    · simp [hne, hfit]
  · constructor
    · exact fun hsafe => absurd hsafe (getTextPara_overruns size ho hl hu he h (by omega))
    · exact fun hlt => absurd hlt.1 hfit

end

end AtCmd
end XR806

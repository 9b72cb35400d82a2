import XR806.Console.Lines

/-!
# XR806.Console.Stream

The command lines a byte stream makes, whichever interrupts the bytes come in.

`lineStep` is what one byte does: an illegal character, or one too many, drops what there is of the
line, and the line goes on from there. With the buffers given back in time, and the characters taken
back one interrupt before others are put in their place, the lines accepted are those of the stream
with each line feed left out that is read together with the carriage return before it. A line feed
that comes with the next interrupt ends one more line, which is empty: the other lines depend only on
the stream.
-/

namespace XR806
namespace Console

open Trans

/-! ## The stream -/

/-- The bytes `consoleRx` does not read. -/
def consoleRxUnread : List UInt8 → State → Nat → Nat → List UInt8
  | [], _, _, _ => []
  | data :: rest, c, cnt, off =>
    if data = 0x08 ∨ data = 0x7f then consoleRxUnread rest c (cnt - 1) off
    else if data = 0x0a ∨ data = 0x0d then
      let c := consoleRxCmdline (putData c off 0)
      if data = 0x0d then
        match rest with
        | [] => []
        | next :: behind =>
          if next = 0x0a then behind
          else if c.rxBufIdx ≠ consoleCmdLineBufNum then
            consoleRxUnread rest c c.rxDataCnt c.rxDataCnt
          -- without a buffer all the bytes are discarded
          else []
      else rest
    else if isprint data then
      let c := putData c off data
      if cnt + 1 < consoleCmdLineMaxLen then consoleRxUnread rest c (cnt + 1) (off + 1)
      else consoleRxUnread rest { c with rxDataCnt := 0 } 0 0
    else consoleRxUnread rest { c with rxDataCnt := 0 } 0 0

def callbackUnread (c : State) (uart : List UInt8) : List UInt8 :=
  let input := c.rxData.toList ++ uart
  let c := { c with rxData := none }
  if c.rxBufIdx ≠ consoleCmdLineBufNum then consoleRxUnread input c c.rxDataCnt c.rxDataCnt else []

/-- The console, the bytes that wait in the UART, and those that each interrupt has read. -/
structure Feed where
  console : State
  uart : List UInt8
  seen : List (List UInt8)

inductive FeedEvent where
  | arrive (bytes : List UInt8)
  | rx
  | task

inductive FeedStep : Feed → FeedEvent → Feed → Prop where
  | arrive {s : Feed} {bytes : List UInt8} :
    FeedStep s (.arrive bytes) { s with uart := s.uart ++ bytes }
  | rx {s : Feed} : FeedStep s .rx
    ⟨consoleRxCallback s.console s.uart, callbackUnread s.console s.uart,
      s.seen ++ [s.uart.take (s.uart.length - (callbackUnread s.console s.uart).length)]⟩
  | task {s : Feed} {c : State} (h : Step s.console none c) : FeedStep s .task { s with console := c }

/-- `console_start`, with `g_console_rx_data` 0 at first and -1 from the first interrupt on. -/
def Feed.start (buf : Nat → UInt8) (first : Bool) : Feed :=
  ⟨Console.start buf (if first then some 0 else none), [], []⟩

/-! ## The lines of a stream -/

/-- What one byte makes of the line so far and of the lines that are complete. -/
def lineStep (s : List UInt8 × List (List UInt8)) (data : UInt8) :
    List UInt8 × List (List UInt8) :=
  if data = 0x08 ∨ data = 0x7f then (s.1.dropLast, s.2)
  else if data = 0x0a ∨ data = 0x0d then ([], s.2 ++ [s.1])
  else if isprint data ∧ s.1.length + 1 < consoleCmdLineMaxLen then (s.1 ++ [data], s.2)
  else ([], s.2)

def linesOf (stream : List UInt8) : List UInt8 × List (List UInt8) := stream.foldl lineStep ([], [])

/-- A carriage return and the line feed behind it are one end of the line. -/
def joinEnds : List UInt8 → List UInt8
  | data :: next :: rest =>
    if data = 0x0d ∧ next = 0x0a then data :: joinEnds rest else data :: joinEnds (next :: rest)
  | short => short

/-- The commands that are not empty. -/
def commands (lines : List (List UInt8)) : List (List UInt8) := lines.filter (· ≠ [])

/-- There is a buffer for each line the interrupt goes on to, and when something is stored the pointer
`off` is where the count `cnt` says: no character has been taken back before it. -/
def WellFed : List UInt8 → Nat → Nat → Nat → Prop
  | [], _, _, _ => True
  | data :: rest, free, cnt, off =>
    if data = 0x08 ∨ data = 0x7f then WellFed rest free (cnt - 1) off
    else if data = 0x0a ∨ data = 0x0d then
      off = cnt ∧ (data = 0x0d → rest ≠ [] → rest.head? ≠ some 0x0a →
        0 < free ∧ WellFed rest (free - 1) 0 0)
    else if isprint data then
      off = cnt ∧ if cnt + 1 < consoleCmdLineMaxLen then WellFed rest free (cnt + 1) (off + 1)
        else WellFed rest free 0 0
    else WellFed rest free 0 0

def FeedOk (s : Feed) : FeedEvent → Prop
  | .rx => s.console.rxBufIdx ≠ consoleCmdLineBufNum ∧
    WellFed (s.console.rxData.toList ++ s.uart) (freeCnt s.console) s.console.rxDataCnt
      s.console.rxDataCnt
  | _ => True

section

variable {c : State} {f cnt off free : Nat} {line input : List UInt8} {out : List (List UInt8)}
  {data : UInt8}

theorem WellFed.inside (h : WellFed input free cnt off) (hcnt : cnt < consoleCmdLineMaxLen) :
    Inside input free cnt off := by
  induction input generalizing free cnt off with
  | nil => trivial
  | cons data rest ih =>
    rw [WellFed] at h
    rw [Inside]
    split
    · rename_i hback
      rw [if_pos hback] at h
      exact ih h (by omega)
    · rename_i hback
      rw [if_neg hback] at h
      split
      · rename_i hend
        rw [if_pos hend] at h
        refine ⟨h.1 ▸ hcnt, fun hcr hlf _ => ?_⟩
        by_cases hrest : rest = []
        · subst hrest
          trivial
        · exact ih (h.2 hcr hrest hlf).2 (by decide)
      · rename_i hend
        rw [if_neg hend] at h
        split
        · rename_i hprint
          rw [if_pos hprint] at h
          refine ⟨h.1 ▸ hcnt, ?_⟩
          split
          · rename_i hmore
            have hrest := h.2
            rw [if_pos hmore] at hrest
            exact ih hrest hmore
          · rename_i hmore
            have hrest := h.2
            rw [if_neg hmore] at hrest
            exact ih hrest (by decide)
        · rename_i hprint
          rw [if_neg hprint] at h
          exact ih h (by decide)

/-! ## One interrupt -/

/-- The receive buffer holds the line so far. -/
structure Filled (c : State) (line : List UInt8) : Prop where
  short : line.length < consoleCmdLineMaxLen
  chars : ∀ b ∈ line, b ≠ 0
  buf : ∀ i (hi : i < line.length), c.buf (c.rxBufIdx * consoleCmdLineMaxLen + i) = (line)[i]

theorem Filled.nil (c : State) : Filled c [] :=
  ⟨by decide, nofun, fun _ hi => absurd hi (Nat.not_lt_zero _)⟩

theorem Filled.congr {c' : State} (h : Filled c line) (hrx : c'.rxBufIdx = c.rxBufIdx)
    (hbuf : ∀ i < line.length, c'.buf (c.rxBufIdx * consoleCmdLineMaxLen + i) =
      c.buf (c.rxBufIdx * consoleCmdLineMaxLen + i)) : Filled c' line :=
  ⟨h.short, h.chars, fun i hi => by rw [hrx, hbuf i hi, h.buf i hi]⟩

theorem Filled.dropLast (h : Filled c line) : Filled c line.dropLast := by
  have hlen : line.dropLast.length ≤ line.length := by simp
  refine ⟨Nat.lt_of_le_of_lt hlen h.short, fun b hb => h.chars b (List.dropLast_subset line hb),
    fun i hi => ?_⟩
  rw [List.getElem_dropLast]
  exact h.buf i (by omega)

theorem isprint_ne_zero (h : isprint data = true) : data ≠ 0 := by
  rintro rfl
  exact absurd h (by decide)

theorem Filled.put (h : Filled c line) (hprint : isprint data = true)
    (hmore : line.length + 1 < consoleCmdLineMaxLen) :
    Filled (putData c line.length data) (line ++ [data]) := by
  refine ⟨by simpa using hmore, fun b hb => ?_, fun i hi => ?_⟩
  · rcases List.mem_append.mp hb with hb | hb
    · exact h.chars b hb
    · rw [List.mem_singleton.mp hb]
      exact isprint_ne_zero hprint
  · rw [List.length_append, List.length_singleton] at hi
    have hrx : (putData c line.length data).rxBufIdx = c.rxBufIdx := rfl
    have hbuf : (putData c line.length data).buf =
        Function.update c.buf (c.rxBufIdx * consoleCmdLineMaxLen + line.length) data := rfl
    rw [hrx, hbuf]
    by_cases hlast : i = line.length
    · subst hlast
      rw [List.getElem_concat_length rfl, Function.update_self]
    · rw [List.getElem_append_left (by omega), Function.update_of_ne (by omega)]
      exact h.buf i (by omega)

/-- The string that the end of the line makes of the buffer. -/
theorem Filled.lineOf (h : Filled c line) :
    lineOf (putData c line.length 0).buf c.rxBufIdx = line := by
  obtain ⟨k, hk⟩ : ∃ k, consoleCmdLineMaxLen = line.length + (k + 1) := by
    have hshort := h.short
    exact ⟨consoleCmdLineMaxLen - line.length - 1, by omega⟩
  have hrange : List.range consoleCmdLineMaxLen =
      List.range line.length ++ line.length :: (List.range k).map (line.length + 1 + ·) := by
    rw [hk, List.range_add, List.range_succ_eq_map, List.map_cons, List.map_map]
    congr 3
    funext i
    exact (Nat.add_right_comm line.length 1 i).symm
  have hhead : (List.range line.length).map (fun i =>
      (putData c line.length 0).buf (c.rxBufIdx * consoleCmdLineMaxLen + i)) = line := by
    refine List.ext_getElem (by simp) fun i hi hi' => ?_
    rw [List.getElem_map, List.getElem_range]
    have hne : c.rxBufIdx * consoleCmdLineMaxLen + i ≠
        c.rxBufIdx * consoleCmdLineMaxLen + line.length := by omega
    exact (Function.update_of_ne hne 0 c.buf).trans (h.buf i hi')
  have hzero : (putData c line.length 0).buf (c.rxBufIdx * consoleCmdLineMaxLen + line.length) = 0 :=
    Function.update_self (c.rxBufIdx * consoleCmdLineMaxLen + line.length) 0 c.buf
  have hchars : ∀ b ∈ line, decide (b ≠ 0) = true := fun b hb => decide_eq_true (h.chars b hb)
  rw [Console.lineOf, hrange, List.map_append, hhead, List.map_cons, hzero,
    List.takeWhile_append_of_pos hchars]
  simp

/-- After the interrupt: a buffer with the line so far, or none and no line. -/
structure Ends (c : State) (line : List UInt8) : Prop where
  filled : c.rxBufIdx ≠ consoleCmdLineBufNum → Filled c line ∧ c.rxDataCnt = line.length
  empty : c.rxBufIdx = consoleCmdLineBufNum → line = []

theorem accepted_rxCmdline (c : State) :
    (consoleRxCmdline c).accepted = c.accepted ++ [lineOf c.buf c.rxBufIdx] := by
  unfold consoleRxCmdline
  rcases consoleGetValidBufIdx c.freeBuf consoleCmdLineBufNum c.rxBufIdx with ⟨next, freeBuf⟩
  rfl

/-- With a free buffer there is one for the next line. -/
theorem Inv.rxCmdline_valid (h : Inv c f) (hrx : c.rxBufIdx ≠ consoleCmdLineBufNum)
    (hfree : 0 < freeCnt c) : (consoleRxCmdline c).rxBufIdx ≠ consoleCmdLineBufNum := by
  obtain ⟨freeBuf, hget, -⟩ := h.nextBuf hrx
  have hn : c.accepted.length = f := by
    by_contra hn
    rw [h.freeCnt_eq, if_neg hn] at hfree
    exact absurd hfree (Nat.lt_irrefl 0)
  rw [rxCmdline_eq hget, if_pos hn]
  exact Nat.ne_of_lt (Nat.mod_lt _ (show 0 < consoleCmdLineBufNum by decide))

/-- The end of a line: the line is accepted and the next one is empty. -/
theorem rxCmdline_ends (h : Inv c f) (hrx : c.rxBufIdx ≠ consoleCmdLineBufNum)
    (hfill : Filled c line) (hout : c.accepted = out) :
    Inv (consoleRxCmdline (putData c line.length 0)) f ∧
      Ends (consoleRxCmdline (putData c line.length 0)) [] ∧
      freeCnt (consoleRxCmdline (putData c line.length 0)) = 0 ∧
      (consoleRxCmdline (putData c line.length 0)).accepted = out ++ [line] ∧
      (0 < freeCnt c →
        (consoleRxCmdline (putData c line.length 0)).rxBufIdx ≠ consoleCmdLineBufNum) := by
  have hput := h.putData hrx hfill.short 0
  obtain ⟨hinv, hcnt, hfree, -⟩ := hput.rxCmdline hrx
  refine ⟨hinv, ⟨fun _ => ⟨Filled.nil _, hcnt⟩, fun _ => rfl⟩, hfree, ?_,
    fun hpos => hput.rxCmdline_valid hrx hpos⟩
  have hline : lineOf (putData c line.length 0).buf (putData c line.length 0).rxBufIdx = line :=
    hfill.lineOf
  have hacc : (putData c line.length 0).accepted = c.accepted := rfl
  rw [accepted_rxCmdline, hline, hacc, hout]

theorem joinEnds_one : joinEnds [data] = [data] := rfl

theorem joinEnds_cons {rest : List UInt8} (h : ¬(data = 0x0d ∧ rest.head? = some 0x0a)) :
    joinEnds (data :: rest) = data :: joinEnds rest := by
  cases rest with
  | nil => rfl
  | cons next rest =>
    rw [joinEnds, if_neg]
    exact fun hand => h ⟨hand.1, congrArg some hand.2⟩

/-- What is read of the input makes the lines of its bytes, with the ends of line joined. -/
def Reads (c' : State) (input unread line : List UInt8) (out : List (List UInt8)) : Prop :=
  ∃ pre, input = pre ++ unread ∧ Ends c' ((joinEnds pre).foldl lineStep (line, out)).1 ∧
    c'.accepted = ((joinEnds pre).foldl lineStep (line, out)).2

theorem Reads.cons {c' : State} {rest unread line' : List UInt8} {out' : List (List UInt8)}
    (h : Reads c' rest unread line' out') (hstep : lineStep (line, out) data = (line', out'))
    (hend : ¬(data = 0x0d ∧ rest.head? = some 0x0a)) :
    Reads c' (data :: rest) unread line out := by
  obtain ⟨pre, hpre, hres⟩ := h
  have hjoin : joinEnds (data :: pre) = data :: joinEnds pre := by
    refine joinEnds_cons fun hand => hend ⟨hand.1, ?_⟩
    cases pre with
    | nil => exact nomatch hand.2
    | cons next pre =>
      rw [hpre]
      exact hand.2
  refine ⟨data :: pre, congrArg (data :: ·) hpre, ?_⟩
  rw [hjoin, List.foldl_cons, hstep]
  exact hres

/-- The callback returns behind the end of a line. -/
theorem Reads.ended {c' : State} (pre unread : List UInt8) (hjoin : joinEnds pre = [data])
    (hstep : lineStep (line, out) data = ([], out ++ [line])) (hends : Ends c' [])
    (hacc : c'.accepted = out ++ [line]) : Reads c' (pre ++ unread) unread line out := by
  refine ⟨pre, rfl, ?_⟩
  rw [hjoin, List.foldl_cons, hstep]
  exact ⟨hends, hacc⟩

theorem rx_lines (h : Inv c f) (hrx : c.rxBufIdx ≠ consoleCmdLineBufNum) (hfill : Filled c line)
    (hok : WellFed input (freeCnt c) line.length off) (hout : c.accepted = out) :
    Reads (consoleRx input c line.length off) input (consoleRxUnread input c line.length off)
      line out := by
  induction input generalizing c line off out with
  | nil =>
    exact ⟨[], rfl, ⟨fun _ => ⟨hfill.congr rfl fun _ _ => rfl, rfl⟩, fun hnone => absurd hnone hrx⟩,
      hout⟩
  | cons data rest ih =>
    rw [WellFed] at hok
    rw [consoleRx, consoleRxUnread]
    by_cases hback : data = 0x08 ∨ data = 0x7f
    · rw [if_pos hback] at hok ⊢
      rw [if_pos hback]
      have hlen : line.length - 1 = line.dropLast.length := List.length_dropLast.symm
      rw [hlen] at hok ⊢
      refine (ih h hrx hfill.dropLast hok hout).cons (if_pos hback) ?_
      rintro ⟨rfl, -⟩
      exact absurd hback (by decide)
    rw [if_neg hback] at hok ⊢
    rw [if_neg hback]
    by_cases hend : data = 0x0a ∨ data = 0x0d
    · rw [if_pos hend] at hok ⊢
      rw [if_pos hend]
      obtain ⟨rfl, hrest⟩ := hok
      obtain ⟨hinv, hends, hfree, hacc, hvalid⟩ := rxCmdline_ends h hrx hfill hout
      have hstep : lineStep (line, out) data = ([], out ++ [line]) := by
        rw [lineStep, if_neg hback, if_pos hend]
      dsimp only
      by_cases hcr : data = 0x0d
      · rw [if_pos hcr, if_pos hcr]
        cases rest with
        | nil => exact .ended [data] [] joinEnds_one hstep hends hacc
        | cons next behind =>
          dsimp only
          by_cases hlf : next = 0x0a
          · rw [if_pos hlf, if_pos hlf]
            exact .ended [data, next] behind (if_pos ⟨hcr, hlf⟩) hstep hends hacc
          · -- the callback goes on in the next buffer
            rw [if_neg hlf, if_neg hlf]
            have hlf' : (next :: behind).head? ≠ some 0x0a := by simpa using hlf
            obtain ⟨hpos, hfed⟩ := hrest hcr (List.cons_ne_nil _ _) hlf'
            have hrx' := hvalid hpos
            rw [if_pos hrx', if_pos hrx']
            obtain ⟨hfill', hcnt'⟩ := hends.filled hrx'
            rw [hcnt']
            have hone : freeCnt c - 1 = 0 := by
              rw [h.freeCnt_eq]
              split <;> rfl
            rw [hone] at hfed
            exact (ih hinv hrx' hfill' (by rw [hfree]; exact hfed) hacc).cons hstep
              fun hand => hlf' hand.2
      · rw [if_neg hcr, if_neg hcr]
        exact .ended [data] rest joinEnds_one hstep hends hacc
    rw [if_neg hend] at hok ⊢
    rw [if_neg hend]
    have hcr : ¬(data = 0x0d ∧ rest.head? = some 0x0a) := fun hand => hend (.inr hand.1)
    by_cases hprint : isprint data = true
    · rw [if_pos hprint] at hok ⊢
      rw [if_pos hprint]
      obtain ⟨rfl, hrest⟩ := hok
      have hput := h.putData hrx hfill.short data
      dsimp only
      by_cases hmore : line.length + 1 < consoleCmdLineMaxLen
      · rw [if_pos hmore] at hrest ⊢
        rw [if_pos hmore]
        have hlen : line.length + 1 = (line ++ [data]).length := by simp
        rw [hlen] at hrest ⊢
        refine (ih hput hrx (hfill.put hprint hmore) hrest hout).cons ?_ hcr
        rw [lineStep, if_neg hback, if_neg hend, if_pos ⟨hprint, hmore⟩]
      · rw [if_neg hmore] at hrest ⊢
        rw [if_neg hmore]
        have hinv : Inv { putData c line.length data with rxDataCnt := 0 } f := hput.setCnt
        refine (ih hinv hrx (Filled.nil _) hrest hout).cons ?_ hcr
        rw [lineStep, if_neg hback, if_neg hend, if_neg fun hand => hmore hand.2]
    · rw [if_neg hprint] at hok ⊢
      rw [if_neg hprint]
      have hinv : Inv { c with rxDataCnt := 0 } f := h.setCnt
      refine (ih hinv hrx (Filled.nil _) hok hout).cons ?_ hcr
      rw [lineStep, if_neg hback, if_neg hend, if_neg fun hand => hprint hand.1]

theorem rxData_rxCmdline (c : State) : (consoleRxCmdline c).rxData = c.rxData := by
  unfold consoleRxCmdline
  rcases consoleGetValidBufIdx c.freeBuf consoleCmdLineBufNum c.rxBufIdx with ⟨next, freeBuf⟩
  rfl

theorem rxData_rx (input : List UInt8) (c : State) (cnt off : Nat) :
    (consoleRx input c cnt off).rxData = c.rxData := by
  induction input generalizing c cnt off with
  | nil => rfl
  | cons data rest ih =>
    rw [consoleRx]
    split
    · exact ih ..
    split
    · have hcmd : (consoleRxCmdline (putData c off 0)).rxData = c.rxData := rxData_rxCmdline _
      dsimp only
      split
      · cases rest with
        | nil => exact hcmd
        | cons next behind =>
          dsimp only
          split
          · exact hcmd
          split
          · exact (ih ..).trans hcmd
          · exact hcmd
      · exact hcmd
    split
    · dsimp only
      split
      · exact ih ..
      · exact ih ..
    · exact ih ..

/-! ## All interrupts -/

/-- The stream that the lines are taken from. -/
def Feed.joined (s : Feed) : List UInt8 := s.seen.flatMap joinEnds

/-- The byte the first interrupt finds is illegal: it changes nothing. -/
structure FeedInv (s : Feed) : Prop where
  inv : ∃ f, Inv s.console f
  ends : Ends s.console (linesOf s.joined).1
  accepted : s.console.accepted = (linesOf s.joined).2
  rxData : s.console.rxData = none ∨ s.console.rxData = some 0 ∧ s.seen = []

theorem linesOf_append (a b : List UInt8) : linesOf (a ++ b) = b.foldl lineStep (linesOf a) :=
  List.foldl_append

/-- What the callback reads is the beginning of what waits in the UART. -/
theorem rx_reads {s : Feed} (h : FeedInv s) (hok : FeedOk s .rx) : ∃ pre,
    s.uart = pre ++ callbackUnread s.console s.uart ∧
    Ends (consoleRxCallback s.console s.uart) (linesOf (s.joined ++ joinEnds pre)).1 ∧
    (consoleRxCallback s.console s.uart).accepted = (linesOf (s.joined ++ joinEnds pre)).2 := by
  obtain ⟨c, uart, seen⟩ := s
  obtain ⟨hrx, hfed⟩ := hok
  obtain ⟨⟨f, hinv⟩, hends0, hacc0, hdata⟩ := h
  dsimp only [Feed.joined] at hrx hfed hinv hends0 hacc0 hdata ⊢
  obtain ⟨hfill, hcnt⟩ := hends0.filled hrx
  have hinv' : Inv { c with rxData := none } f :=
    ⟨hinv.given, hinv.done, hinv.room, hinv.rx, hinv.free, hinv.ready, hinv.lines, hinv.inOrder,
      hinv.task⟩
  have hfill' : Filled { c with rxData := none } (linesOf (seen.flatMap joinEnds)).1 :=
    hfill.congr rfl fun _ _ => rfl
  rw [consoleRxCallback, callbackUnread]
  dsimp only
  rw [if_pos hrx, if_pos hrx]
  rcases hdata with hnone | ⟨hzero, rfl⟩
  · rw [hnone, hcnt] at hfed
    rw [hnone]
    have hlines := rx_lines hinv' hrx hfill' hfed hacc0
    rw [← hcnt] at hlines
    simp only [linesOf_append]
    exact hlines
  · have hskip : ∀ c cnt off, consoleRx ((some 0).toList ++ uart) c cnt off =
        consoleRx uart { c with rxDataCnt := 0 } 0 0 := fun _ _ _ => rfl
    have hskip' : ∀ c cnt off, consoleRxUnread ((some 0).toList ++ uart) c cnt off =
        consoleRxUnread uart { c with rxDataCnt := 0 } 0 0 := fun _ _ _ => rfl
    have hfed' : WellFed uart (freeCnt c) 0 0 := by
      rw [hzero] at hfed
      exact hfed
    have hinv'' : Inv { c with rxData := none, rxDataCnt := 0 } f := hinv'.setCnt
    rw [hzero, hskip, hskip']
    obtain ⟨pre, hpre, hends, hacc⟩ := rx_lines hinv'' hrx (Filled.nil _) hfed' hacc0
    exact ⟨pre, hpre, hends, hacc⟩

theorem FeedInv.inside {s : Feed} (h : FeedInv s) (hok : FeedOk s .rx) :
    InputInside s.console (some s.uart) := by
  intro hrx
  obtain ⟨hfill, hcnt⟩ := h.ends.filled hrx
  refine hok.2.inside ?_
  rw [hcnt]
  exact hfill.short

/-- The task leaves the receive buffer alone. -/
theorem Ends.task {c c' : State} {f : Nat} (h : Ends c line) (hinv : Inv c f)
    (hstep : Step c none c') : Ends c' line := by
  cases hstep with
  | wait htask hsem => exact ⟨fun hrx => ⟨(h.filled hrx).1.congr rfl fun _ _ => rfl, (h.filled hrx).2⟩,
      h.empty⟩
  | take htask hget hidx =>
    exact ⟨fun hrx => ⟨(h.filled hrx).1.congr rfl fun _ _ => rfl, (h.filled hrx).2⟩, h.empty⟩
  | nothing htask hget =>
    exact ⟨fun hrx => ⟨(h.filled hrx).1.congr rfl fun _ _ => rfl, (h.filled hrx).2⟩, h.empty⟩
  | @exec idx buf htask hsame =>
    refine ⟨fun hrx => ⟨(h.filled hrx).1.congr rfl fun i hi => hsame _ ?_, (h.filled hrx).2⟩, h.empty⟩
    have hholds := hinv.task
    rw [htask] at hholds
    obtain ⟨hexec, rfl, -⟩ := hholds
    have hlt := hinv.rx_lt hrx
    have hidx := hinv.rx_eq hrx
    have hdone := hinv.done
    have hshort := (h.filled hrx).1.short
    have hne : c.rxBufIdx ≠ f % 2 := by omega
    intro hin
    unfold consoleCmdLineMaxLen at *
    omega
  | direct htask hrx =>
    have hnil := h.empty hrx
    subst hnil
    exact ⟨fun _ => ⟨Filled.nil _, rfl⟩, fun _ => rfl⟩
  | release htask hrx =>
    exact ⟨fun hrx => ⟨(h.filled hrx).1.congr rfl fun _ _ => rfl, (h.filled hrx).2⟩, h.empty⟩

theorem task_same {c c' : State} (hstep : Step c none c') :
    c'.accepted = c.accepted ∧ c'.rxData = c.rxData := by
  cases hstep <;> exact ⟨rfl, rfl⟩

theorem feedInv_start (buf : Nat → UInt8) (first : Bool) : FeedInv (Feed.start buf first) := by
  refine ⟨⟨0, inv_start _ _⟩, ⟨fun _ => ⟨Filled.nil _, rfl⟩, fun _ => rfl⟩, rfl, ?_⟩
  cases first with
  | false => exact .inl rfl
  | true => exact .inr ⟨rfl, rfl⟩

def FeedEvent.bytes : FeedEvent → List UInt8
  | .arrive bytes => bytes
  | _ => []

theorem FeedInv.step {s s' : Feed} {a : FeedEvent} (h : FeedInv s)
    (hstep : Guarded FeedStep FeedOk s a s') :
    FeedInv s' ∧ (s.seen.flatten ++ s.uart) ++ a.bytes = [] ++ (s'.seen.flatten ++ s'.uart) := by
  obtain ⟨hok, hstep⟩ := hstep
  cases hstep with
  | arrive => exact ⟨⟨h.inv, h.ends, h.accepted, h.rxData⟩, List.append_assoc ..⟩
  | rx =>
    obtain ⟨pre, hpre, hends, hacc⟩ := rx_reads h hok
    obtain ⟨f, hinv⟩ := h.inv
    have htake : s.uart.take (s.uart.length - (callbackUnread s.console s.uart).length) = pre := by
      have hlen : s.uart.length - (callbackUnread s.console s.uart).length = pre.length := by
        have hsum := congrArg List.length hpre
        rw [List.length_append] at hsum
        omega
      rw [hlen]
      conv => lhs; rw [hpre]
      exact List.take_left
    rw [htake]
    have hjoined : (s.seen ++ [pre]).flatMap joinEnds = s.joined ++ joinEnds pre := by
      rw [List.flatMap_append, List.flatMap_singleton, Feed.joined]
    rw [← hjoined] at hends hacc
    refine ⟨⟨⟨f, hinv.rxCallback (h.inside hok)⟩, hends, hacc, .inl ?_⟩, ?_⟩
    · dsimp only
      rw [consoleRxCallback]
      dsimp only
      rw [if_pos hok.1, rxData_rx]
    · dsimp only [FeedEvent.bytes]
      rw [List.append_nil, List.nil_append, List.flatten_append, List.flatten_singleton,
        List.append_assoc, ← hpre]
  | task hstep =>
    obtain ⟨f, hinv⟩ := h.inv
    obtain ⟨hacc, hdata⟩ := task_same hstep
    have hin : InputInside s.console none := trivial
    refine ⟨⟨inv_step hinv hin hstep, h.ends.task hinv hstep, ?_, ?_⟩, ?_⟩
    · dsimp only
      rw [hacc]
      exact h.accepted
    · dsimp only
      rw [hdata]
      exact h.rxData
    · exact List.append_nil _

/-! ## Lines that are not empty -/

theorem commands_append (a b : List (List UInt8)) : commands (a ++ b) = commands a ++ commands b :=
  List.filter_append ..

/-- The same line, and the same commands but for empty ones. -/
def SameCommands (s s' : List UInt8 × List (List UInt8)) : Prop :=
  s.1 = s'.1 ∧ commands s.2 = commands s'.2

theorem SameCommands.step {s s' : List UInt8 × List (List UInt8)} (h : SameCommands s s')
    (data : UInt8) : SameCommands (lineStep s data) (lineStep s' data) := by
  obtain ⟨line, out⟩ := s
  obtain ⟨line', out'⟩ := s'
  obtain ⟨rfl, hout⟩ := h
  dsimp only at hout
  unfold lineStep
  dsimp only
  split
  · exact ⟨rfl, hout⟩
  split
  · exact ⟨rfl, by rw [commands_append, commands_append, hout]⟩
  split
  · exact ⟨rfl, hout⟩
  · exact ⟨rfl, hout⟩

/-- A line feed behind a carriage return ends an empty line. -/
theorem SameCommands.joinEnds (bytes : List UInt8) {s s' : List UInt8 × List (List UInt8)}
    (h : SameCommands s s') :
    SameCommands ((joinEnds bytes).foldl lineStep s) (bytes.foldl lineStep s') := by
  induction bytes using Console.joinEnds.induct generalizing s s' with
  | case1 data next rest hand ih =>
    obtain ⟨rfl, rfl⟩ := hand
    have hempty : SameCommands (lineStep s 0x0d) (lineStep (lineStep s' 0x0d) 0x0a) :=
      ⟨rfl, by
        rw [(h.step 0x0d).2]
        exact ((commands_append _ [[]]).trans (List.append_nil _)).symm⟩
    rw [Console.joinEnds, if_pos ⟨rfl, rfl⟩]
    exact ih hempty
  | case2 data next rest hand ih =>
    rw [Console.joinEnds, if_neg hand]
    exact ih (h.step data)
  | case3 short hshort =>
    cases short with
    | nil => exact h
    | cons data rest =>
      cases rest with
      | nil => exact h.step data
      | cons next rest => exact absurd rfl (hshort data next rest)

theorem sameCommands_flatMap (reads : List (List UInt8)) {s s' : List UInt8 × List (List UInt8)}
    (h : SameCommands s s') :
    SameCommands ((reads.flatMap joinEnds).foldl lineStep s) (reads.flatten.foldl lineStep s') := by
  induction reads generalizing s s' with
  | nil => exact h
  | cons bytes reads ih =>
    rw [List.flatMap_cons, List.flatten_cons, List.foldl_append, List.foldl_append]
    exact ih (h.joinEnds bytes)

/-- The lines accepted are those of what has been read, which is the beginning of what has arrived, with
an end of line for each carriage return and the line feed read with it. Those that are not empty are
the ones of the stream, whichever way it came. The next interrupt stays in the buffer. -/
theorem console_lines (buf : Nat → UInt8) (first : Bool) {as : List FeedEvent} {s : Feed}
    (h : Run (Guarded FeedStep FeedOk) (Feed.start buf first) as s) :
    s.console.accepted = (linesOf (s.seen.flatMap joinEnds)).2 ∧
      commands s.console.accepted = commands (linesOf s.seen.flatten).2 ∧
      as.flatMap FeedEvent.bytes = s.seen.flatten ++ s.uart ∧
      Orderly s.console ∧ Drains s.console ∧
      (FeedOk s .rx → InputInside s.console (some s.uart)) := by
  have hinv : FeedInv s := h.invariant (feedInv_start buf first) fun _ _ _ hI hs => (hI.step hs).1
  have hflow := @Run.flow _ _ _ _ _ _ _ FeedInv (fun s => s.seen.flatten ++ s.uart)
    FeedEvent.bytes
    (fun _ => []) h (feedInv_start buf first) fun _ _ _ hI hs => hI.step hs
  obtain ⟨f, hf⟩ := hinv.inv
  have hsame : SameCommands (linesOf s.joined) (linesOf s.seen.flatten) :=
    sameCommands_flatMap s.seen ⟨rfl, rfl⟩
  refine ⟨hinv.accepted, (congrArg commands hinv.accepted).trans hsame.2, ?_, hf.orderly, hf.drains,
    hinv.inside⟩
  have hout : as.flatMap (fun _ => ([] : List UInt8)) = [] := by simp
  rw [hout] at hflow
  exact hflow

end

/-- One interrupt that finds all the bytes. -/
def oneRx (bytes : List UInt8) : Feed :=
  let c := (Feed.start (fun _ => 0) true).console
  ⟨consoleRxCallback c bytes, callbackUnread c bytes,
    [bytes.take (bytes.length - (callbackUnread c bytes).length)]⟩

theorem run_oneRx {bytes : List UInt8} (h : WellFed (0 :: bytes) 1 0 0) :
    Run (Guarded FeedStep FeedOk) (Feed.start (fun _ => 0) true) [.arrive bytes, .rx]
      (oneRx bytes) := by
  have hok : FeedOk ⟨(Feed.start (fun _ => 0) true).console, bytes, []⟩ .rx :=
    ⟨show 0 ≠ consoleCmdLineBufNum by decide, h⟩
  exact .cons ⟨trivial, .arrive⟩ (.single ⟨hok, .rx⟩)

/-- Two lines, the second one ended by a carriage return and a line feed. -/
def twoEnds : List UInt8 := [0x41, 0x0d, 0x42, 0x0d, 0x0a]

theorem wellFed_two : WellFed (0 :: twoEnds) 1 0 0 := by
  simp [WellFed, twoEnds, isprint, consoleCmdLineMaxLen]

theorem console_lines_two : (oneRx twoEnds).console.accepted = [[0x41], [0x42]] ∧
    (oneRx twoEnds).seen = [twoEnds] ∧
    (oneRx twoEnds).console.accepted = (linesOf ((oneRx twoEnds).seen.flatMap joinEnds)).2 ∧
    commands (oneRx twoEnds).console.accepted = commands (linesOf twoEnds).2 := by
  obtain ⟨haccepted, hcommands, -⟩ := console_lines (fun _ => 0) true (run_oneRx wellFed_two)
  exact ⟨by decide, by decide, haccepted, hcommands⟩

/-- An empty line is a command, and so is what comes behind an illegal character. -/
theorem empty_and_tail_accepted :
    (∃ as s, Run (Guarded FeedStep FeedOk) (Feed.start (fun _ => 0) true) as s ∧
      s.seen = [[0x0d]] ∧ s.uart = [] ∧ s.console.accepted = [[]]) ∧
    ∃ as s, Run (Guarded FeedStep FeedOk) (Feed.start (fun _ => 0) true) as s ∧
      s.seen = [[0x41, 0x01, 0x42, 0x0d]] ∧ s.uart = [] ∧ s.console.accepted = [[0x42]] := by
  have hempty : WellFed [0, 0x0d] 1 0 0 := by simp [WellFed, isprint]
  have htail : WellFed [0, 0x41, 0x01, 0x42, 0x0d] 1 0 0 := by
    simp [WellFed, isprint, consoleCmdLineMaxLen]
  exact ⟨⟨_, _, run_oneRx hempty, by decide, by decide, by decide⟩,
    _, _, run_oneRx htail, by decide, by decide, by decide⟩

end Console
end XR806

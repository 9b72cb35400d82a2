import Mathlib.Data.UInt
import XR806.Efpg.Region

/-!
# XR806.Efpg.Frame

The frames of the provisioning task: `efpg_task` receives a command of 8 bytes, an extended command
of 13 bytes or the data of a write, each into a buffer of its own, and takes the length of the next
frame from the command.

Two commands give a length that their buffer does not have. A write of more than 608 bits of the
user area overruns the data (`write_too_long`), and an extended command for a field other than the
user area has the task receive the data of that field as an extended command. In a run without
them every frame fits, and is only read inside its buffer (`frames_ok`).
-/

namespace XR806
namespace Efpg

open Trans

inductive Op
  | read
  | write
  | exit
  | num
deriving DecidableEq, Repr

inductive Field
  | hosc
  | boot
  | macWlan
  | dcxo
  | poutWlan
  | chipid
  | ua
  | poutBt
  | macBt
  | secretkey
  | secureswd
  | all
  | num
deriving DecidableEq, Repr

inductive State
  | continue
  | reset
  | stop
deriving DecidableEq, Repr

inductive Buf
  | cmdFrame
  | extCmdFrame
  | dataFrame
deriving DecidableEq, Repr

def efpgMsgDgstLen : Nat := 32

def efpgUaerAreaExtLen : Nat := 8 + (2 + 2) + 1

namespace Buf

def size : Buf → Nat
  | cmdFrame => 8
  | extCmdFrame => efpgUaerAreaExtLen
  | dataFrame => 76 + efpgMsgDgstLen

end Buf

/-- Bytes of a frame that are read. -/
structure Access where
  buf : Buf
  off : Int
  len : Int
deriving DecidableEq, Repr

def Access.Inside (a : Access) : Prop := 0 ≤ a.off ∧ 0 ≤ a.len ∧ a.off + a.len ≤ a.buf.size

structure Priv where
  isCmd : Bool
  extCmd : Bool
  bytes : Buf → List UInt8
  exptLen : Nat
  recvLen : Nat
  protocolVersion : Nat
  startBitAddr : Nat
  bitLength : Nat
  op : Op
  field : Field

def u8 (p : List UInt8) (off : Nat) : Nat := (p.getD off 0).toNat

def u16 (p : List UInt8) (off : Nat) : Nat := u8 p off + 256 * u8 p (off + 1)

def efpgChecksum8 (data : List UInt8) (len : Nat) : UInt8 := (data.take len).sum

namespace Priv

def cmdBuf (e : Priv) : Buf := if e.extCmd then .extCmdFrame else .cmdFrame

/-- The buffer that the next frame is received into. -/
def buf (e : Priv) : Buf := if e.isCmd then e.cmdBuf else .dataFrame

/-- The bytes that are received go to the start of the buffer. -/
def store (e : Priv) (recv : List UInt8) : Priv :=
  { e with bytes := Function.update e.bytes e.buf (recv ++ (e.bytes e.buf).drop recv.length) }

end Priv

/-! ## Commands -/

def opOf : Nat → Option Op
  | 0x0FF0 => some .read
  | 0xF00F => some .write
  | _ => none

def efpgOpCodeExit : Nat := 0xFFFF

def efpgTypeUserArea : Nat := 0xFA05

/-- The fields with a frame of fixed length. -/
def frameOf : Nat → Option (Field × Nat)
  | 0xFF00 => some (.hosc, 1 + efpgMsgDgstLen)
  | 0xFE01 => some (.boot, 32 + efpgMsgDgstLen)
  | 0xFD02 => some (.dcxo, 1 + efpgMsgDgstLen)
  | 0xFC03 => some (.poutWlan, 3 + efpgMsgDgstLen)
  | 0xFB04 => some (.macWlan, 6 + efpgMsgDgstLen)
  | 0xF807 => some (.poutBt, 3 + efpgMsgDgstLen)
  | 0xF708 => some (.macBt, 6 + efpgMsgDgstLen)
  | 0xF609 => some (.secretkey, 16 + efpgMsgDgstLen)
  | 0xF50A => some (.secureswd, 1 + efpgMsgDgstLen)
  | 0xF906 => some (.chipid, 16 + efpgMsgDgstLen)
  | _ => none

/-- The frame of a user area of some bits: the bytes that hold them, and the digest. -/
def userAreaLen (bitLength : Nat) : Nat :=
  (bitLength / 8 + efpgMsgDgstLen + if bitLength % 8 ≠ 0 then 1 else 0) % 2 ^ 16

/-- Whether the command is taken, what it leaves, and the bytes of the frame that it reads. -/
def efpgParseCmd (e : Priv) : Bool × Priv × List Access :=
  let p := e.bytes e.cmdBuf
  let opCode := u16 p 0
  let type := u16 p 2
  let len := u16 p 4
  let reads : List Access := [⟨e.cmdBuf, 0, 2⟩, ⟨e.cmdBuf, 2, 2⟩, ⟨e.cmdBuf, 4, 2⟩]
  if opCode = efpgOpCodeExit then (true, { e with op := .exit }, reads)
  else
    match opOf opCode with
    | none => (false, e, reads)
    | some op =>
      if type = efpgTypeUserArea then
        if e.extCmd then
          let bitLength := u16 p 10
          let reads := reads ++ [⟨e.cmdBuf, 6, 2⟩, ⟨e.cmdBuf, 8, 2⟩, ⟨e.cmdBuf, 10, 2⟩]
          -- `len` is set to the length just computed, so that the check of it always passes
          (true, { e with
            op, protocolVersion := u16 p 6, startBitAddr := u16 p 8, bitLength, extCmd := false,
            field := .ua, exptLen := userAreaLen bitLength }, reads)
        else
          let reads := reads ++ [⟨e.cmdBuf, 6, 1⟩]
          if u8 p 6 ≠ 1 then (false, { e with op }, reads)
          else
            (decide (len = efpgUaerAreaExtLen),
              { e with op, extCmd := true, field := .ua, exptLen := efpgUaerAreaExtLen }, reads)
      else
        match frameOf type with
        | none => (false, { e with op }, reads)
        | some (field, frameLen) =>
          (decide (len = frameLen), { e with op, field, exptLen := frameLen }, reads)

/-- What a turn of the task meets outside: what the UART receives, whether the memory for an answer
is there, whether the acknowledgement gets out, and the digest that the hardware makes. -/
structure Turn where
  recv : List UInt8
  fails : Bool
  malloc : Bool
  ack : Bool
  sha : Option (List UInt8)

def efpgExtCmdProcess (t : Turn) (e : Priv) : State × Priv :=
  (if t.ack then .continue else .reset, { e with isCmd := true, recvLen := 0 })

/-- An answer that is sent ends the exchange, and so does one that is not. -/
def efpgReadProcess (t : Turn) : State :=
  if t.malloc then
    match t.sha with
    | none => .stop
    | some _ => .reset
  else .reset

def efpgWriteProcess (t : Turn) (e : Priv) : State × Priv :=
  (if t.ack then .continue else .reset, { e with isCmd := false, recvLen := 0 })

def efpgStopProcess (t : Turn) : State := if t.ack then .stop else .reset

/-- What a command that is taken leads to. -/
def efpgRunCmd (t : Turn) (e : Priv) : State × Priv × List Access :=
  if e.extCmd then ((efpgExtCmdProcess t e).1, (efpgExtCmdProcess t e).2, [])
  else
    match e.op with
    | .read => (efpgReadProcess t, e, [⟨.cmdFrame, 0, 8⟩])
    | .write => ((efpgWriteProcess t e).1, (efpgWriteProcess t e).2, [])
    | .exit => (efpgStopProcess t, e, [])
    | .num => (.stop, e, [])

def efpgCmdFrameProcess (t : Turn) (e : Priv) : State × Priv × List Access :=
  let sum : Access := ⟨e.cmdBuf, 0, e.recvLen⟩
  if efpgChecksum8 (e.bytes e.cmdBuf) e.recvLen ≠ 0xFF then (.reset, e, [sum])
  else
    match efpgParseCmd e with
    | (false, e, reads) => (.reset, e, sum :: reads)
    | (true, e, reads) =>
      let (state, e, more) := efpgRunCmd t e
      (state, e, sum :: reads ++ more)

/-! ## Data -/

/-- The bytes of the data that `efpg_write_region` reads, with every slot tried. -/
def regionReads (info : RegionInfo) : List (Nat × Nat) :=
  (List.range info.flagBits).flatMap fun idx =>
    (0, info.bufLen) :: halEfuseWriteReads (info.dataStart + idx * info.dataBits) info.dataBits

/-- The same for a field that is written and compared once. -/
def fieldReads (start bits bufLen : Nat) : List (Nat × Nat) :=
  (0, bufLen) :: halEfuseWriteReads start bits

def efpgUserAreaStart : Nat := 816

def efpgUserAreaNum : Nat := halEfuseBitNum - efpgUserAreaStart

def userAreaReads (start num : Nat) : List (Nat × Nat) :=
  if start ≥ efpgUserAreaNum ∨ num = 0 ∨ num > efpgUserAreaNum ∨ start + num > efpgUserAreaNum then
    []
  else halEfuseWriteReads (start + efpgUserAreaStart) num

/-- The bytes of the data that `efpg_write_field` reads when no fuse stops it early. -/
def writeFieldReads (field : Field) (startBitAddr bitLen : Nat) : List (Nat × Nat) :=
  match field with
  | .hosc => fieldReads 385 4 1
  | .boot => fieldReads 409 256 32
  | .dcxo => regionReads dcxoTrim
  | .poutWlan => regionReads poutCal
  | .poutBt => regionReads btPoutCal
  -- the bytes are turned round for the first versions of the fuses
  | .macWlan => (0, 6) :: regionReads macAddress
  | .macBt => regionReads macBtAddr
  | .chipid => fieldReads 128 128 16
  | .secretkey => fieldReads 256 128 16
  | .secureswd => fieldReads 384 1 1
  | .ua => userAreaReads startBitAddr bitLen
  | .all => []
  | .num => []

def dataAccess (area : Nat × Nat) : Access := ⟨.dataFrame, area.1, area.2⟩

/-- What a data frame leads to is the start of the exchange, whatever becomes of the write. -/
def efpgDataFrameProcess (t : Turn) (e : Priv) : State × List Access :=
  let msgDgst : Access := ⟨.dataFrame, (e.recvLen : Int) - efpgMsgDgstLen, efpgMsgDgstLen⟩
  let digest : List Access := [⟨.cmdFrame, 0, 8⟩,
    ⟨.dataFrame, 0, (e.recvLen : Int) - efpgMsgDgstLen⟩]
  match t.sha with
  | none => (.reset, digest)
  | some cal =>
    if cal = ((e.bytes .dataFrame).drop (e.recvLen - efpgMsgDgstLen)).take efpgMsgDgstLen then
      (.reset, digest ++ msgDgst ::
        (writeFieldReads e.field e.startBitAddr e.bitLength).map dataAccess)
    else (.reset, digest ++ [msgDgst])

/-! ## The task -/

def efpgReset (e : Priv) : Priv :=
  { e with isCmd := true, extCmd := false, exptLen := 8, recvLen := 0, op := .num, field := .num,
           startBitAddr := 0, bitLength := 0 }

def afterState (e : Priv) : State → Option Priv
  | .continue => some e
  | .reset => some (efpgReset e)
  | .stop => none

/-- The task with the frame in its buffer. -/
def received (t : Turn) (e : Priv) : Priv := { e.store t.recv with recvLen := t.recv.length }

/-- A turn of the loop of `efpg_task`: the task afterwards, gone when it has stopped, and the bytes
of the frames that it has read. -/
def efpgTurn (t : Turn) (e : Priv) : Option Priv × List Access :=
  if t.fails then (none, [])
  else if t.recv = [] then (some e, [])
  else
    if t.recv.length ≠ e.exptLen then (some (efpgReset (e.store t.recv)), [])
    else
      let e := received t e
      if e.isCmd then
        let (state, e, reads) := efpgCmdFrameProcess t e
        (afterState e state, reads)
      else
        let (state, reads) := efpgDataFrameProcess t e
        (afterState e state, reads)

/-- The UART receives no more bytes than it is asked for. -/
inductive Receive : Option Priv → Turn → Option Priv → Prop
  | turn {e : Priv} {t : Turn} : t.recv.length ≤ e.exptLen →
    Receive (some e) t (efpgTurn t e).1

/-- The next frame fits its buffer, and every turn reads inside the buffers. -/
def Fitting (e : Priv) : Prop :=
  e.exptLen ≤ e.buf.size ∧
    ∀ t : Turn, t.recv.length ≤ e.exptLen → ∀ a ∈ (efpgTurn t e).2, a.Inside

/-! ## The frames that fit -/

/-- The length that the task waits for: that of the command buffer, or of data that fits. -/
structure Waiting (e : Priv) : Prop where
  cmd : e.isCmd = true → e.exptLen = e.cmdBuf.size
  data : e.isCmd = false → efpgMsgDgstLen ≤ e.exptLen ∧ e.exptLen ≤ Buf.dataFrame.size

/-- The fields of an extended command that give a length that the next buffer does not have. -/
def LongFields (p : List UInt8) : Prop :=
  opOf (u16 p 0) = some .write ∧ u16 p 2 = efpgTypeUserArea ∧ 76 * 8 < u16 p 10 ∨
    (∃ op, opOf (u16 p 0) = some op) ∧ u16 p 2 ≠ efpgTypeUserArea ∧
      ∃ field frameLen, frameOf (u16 p 2) = some (field, frameLen) ∧ u16 p 4 = frameLen

/-- An extended command that is received whole and taken, and has such a length. -/
def Overlong (t : Turn) (e : Priv) : Prop :=
  (e.isCmd = true ∧ e.extCmd = true ∧ t.fails = false ∧ t.recv.length = e.exptLen) ∧
    efpgChecksum8 ((received t e).bytes .extCmdFrame) t.recv.length = 0xFF ∧ t.ack = true ∧
    LongFields ((received t e).bytes .extCmdFrame)

section

variable {e e' : Priv} {t : Turn} {field : Field} {s n type frameLen : Nat} {area : Nat × Nat}

theorem frameOf_len (h : frameOf type = some (field, frameLen)) :
    efpgMsgDgstLen < frameLen ∧ frameLen ≤ 64 := by
  unfold frameOf at h
  split at h <;> cases h <;> decide

theorem Waiting.fits (h : Waiting e) : e.exptLen ≤ e.buf.size := by
  unfold Priv.buf
  cases hcmd : e.isCmd with
  | true => exact (h.cmd hcmd).le
  | false => exact (h.data hcmd).2

theorem efuseReads_le (hmem : area ∈ halEfuseWriteReads s n) : area.1 + area.2 ≤ n / 8 + 8 := by
  unfold halEfuseWriteReads at hmem
  split at hmem
  · cases hmem
  · rename_i hrange
    simp only [List.mem_cons, List.mem_map, List.mem_range] at hmem
    obtain rfl | rfl | ⟨k, hk, rfl⟩ := hmem
    · dsimp only
      omega
    · dsimp only
      omega
    · dsimp only
      split at hk <;> omega

theorem fieldReads_le {bufLen : Nat} (hn : n ≤ 256) (hbuf : bufLen ≤ 32)
    (hmem : area ∈ fieldReads s n bufLen) : area.1 + area.2 ≤ 76 + efpgMsgDgstLen := by
  cases hmem with
  | head => exact (by decide : 0 + 32 ≤ 76 + efpgMsgDgstLen).trans' (by omega)
  | tail _ hmem =>
    have hle := efuseReads_le hmem
    unfold efpgMsgDgstLen
    omega

theorem regionReads_le {info : RegionInfo} (hn : info.dataBits ≤ 256)
    (hmem : area ∈ regionReads info) : area.1 + area.2 ≤ 76 + efpgMsgDgstLen := by
  simp only [regionReads, List.mem_flatMap, List.mem_range] at hmem
  obtain ⟨idx, -, hmem⟩ := hmem
  exact fieldReads_le hn (by unfold RegionInfo.bufLen; omega) hmem

theorem userAreaReads_le (hmem : area ∈ userAreaReads s n) :
    area.1 + area.2 ≤ 76 + efpgMsgDgstLen := by
  unfold userAreaReads at hmem
  split at hmem
  · cases hmem
  · rename_i hrange
    have hle := efuseReads_le hmem
    unfold efpgUserAreaNum efpgUserAreaStart halEfuseBitNum at hrange
    unfold efpgMsgDgstLen
    omega

theorem writeFieldReads_le (hmem : area ∈ writeFieldReads field s n) :
    area.1 + area.2 ≤ 76 + efpgMsgDgstLen := by
  cases field with
  | hosc => exact fieldReads_le (by omega) (by omega) hmem
  | boot => exact fieldReads_le (by omega) (by omega) hmem
  | dcxo => exact regionReads_le (by decide) hmem
  | poutWlan => exact regionReads_le (by decide) hmem
  | poutBt => exact regionReads_le (by decide) hmem
  | macWlan =>
    cases hmem with
    | head => decide
    | tail _ hmem => exact regionReads_le (by decide) hmem
  | macBt => exact regionReads_le (by decide) hmem
  | chipid => exact fieldReads_le (by omega) (by omega) hmem
  | secretkey => exact fieldReads_le (by omega) (by omega) hmem
  | secureswd => exact fieldReads_le (by omega) (by omega) hmem
  | ua => exact userAreaReads_le hmem
  | all => cases hmem
  | num => cases hmem

theorem le_cmdBuf_size : 8 ≤ e.cmdBuf.size := by
  unfold Priv.cmdBuf
  split <;> decide

theorem inside_of_le {buf : Buf} (off len : Nat) (h : off + len ≤ buf.size) :
    (⟨buf, off, len⟩ : Access).Inside := by
  refine ⟨Int.natCast_nonneg off, Int.natCast_nonneg len, ?_⟩
  dsimp only
  omega

theorem cmd_inside (off len : Nat) (h : off + len ≤ 8) : (⟨e.cmdBuf, off, len⟩ : Access).Inside :=
  inside_of_le off len (h.trans le_cmdBuf_size)

theorem ext_inside (off len : Nat) (hext : e.extCmd = true) (h : off + len ≤ 13) :
    (⟨e.cmdBuf, off, len⟩ : Access).Inside := by
  refine inside_of_le off len (h.trans ?_)
  rw [Priv.cmdBuf, if_pos hext]
  decide

theorem parseCmd_reads : ∀ a ∈ (efpgParseCmd e).2.2, a.Inside := by
  have hhead : ∀ a ∈ ([⟨e.cmdBuf, 0, 2⟩, ⟨e.cmdBuf, 2, 2⟩, ⟨e.cmdBuf, 4, 2⟩] : List Access),
      a.Inside := by
    simp only [List.forall_mem_cons]
    exact ⟨cmd_inside 0 2 (by omega), cmd_inside 2 2 (by omega), cmd_inside 4 2 (by omega), nofun⟩
  unfold efpgParseCmd
  dsimp only
  split
  · exact hhead
  · cases opOf (u16 (e.bytes e.cmdBuf) 0) with
    | none => exact hhead
    | some op =>
      dsimp only
      split
      · split
        · rename_i hext
          refine List.forall_mem_append.mpr ⟨hhead, ?_⟩
          simp only [List.forall_mem_cons]
          exact ⟨ext_inside 6 2 hext (by omega), ext_inside 8 2 hext (by omega),
            ext_inside 10 2 hext (by omega), nofun⟩
        · have hcmd : ∀ a ∈ ([⟨e.cmdBuf, 6, 1⟩] : List Access), a.Inside := by
            simp only [List.forall_mem_cons]
            exact ⟨cmd_inside 6 1 (by omega), nofun⟩
          split <;> exact List.forall_mem_append.mpr ⟨hhead, hcmd⟩
      · cases frameOf (u16 (e.bytes e.cmdBuf) 2) <;> exact hhead

/-- What a command that is taken makes of the task. -/
inductive Parsed (e : Priv) : Priv → Prop
  | exit : Parsed e { e with op := .exit }
  | userArea {op : Op} : e.extCmd = false →
    Parsed e { e with op, extCmd := true, field := .ua, exptLen := efpgUaerAreaExtLen }
  | ext {op : Op} {version start bitLength : Nat} : e.extCmd = true →
    opOf (u16 (e.bytes .extCmdFrame) 0) = some op →
    u16 (e.bytes .extCmdFrame) 2 = efpgTypeUserArea →
    u16 (e.bytes .extCmdFrame) 10 = bitLength →
    Parsed e { e with op, protocolVersion := version, startBitAddr := start, bitLength,
                      extCmd := false, field := .ua, exptLen := userAreaLen bitLength }
  | fixed {op : Op} {field : Field} {frameLen : Nat} :
    opOf (u16 (e.bytes e.cmdBuf) 0) = some op → u16 (e.bytes e.cmdBuf) 2 ≠ efpgTypeUserArea →
    frameOf (u16 (e.bytes e.cmdBuf) 2) = some (field, frameLen) →
    u16 (e.bytes e.cmdBuf) 4 = frameLen → Parsed e { e with op, field, exptLen := frameLen }

theorem parseCmd_ok {reads : List Access} (h : efpgParseCmd e = (true, e', reads)) :
    Parsed e e' := by
  unfold efpgParseCmd at h
  dsimp only at h
  split at h
  · cases h
    exact .exit
  · cases hop : opOf (u16 (e.bytes e.cmdBuf) 0) with
    | none =>
      rw [hop] at h
      cases h
    | some op =>
      rw [hop] at h
      dsimp only at h
      split at h
      · rename_i htype
        split at h
        · rename_i hext
          have hbuf : e.cmdBuf = .extCmdFrame := if_pos hext
          cases h
          rw [hbuf] at hop htype ⊢
          exact .ext hext hop htype rfl
        · rename_i hext
          split at h
          · cases h
          · rw [Prod.mk.injEq, Prod.mk.injEq] at h
            obtain ⟨-, rfl, -⟩ := h
            exact .userArea (Bool.eq_false_iff.mpr hext)
      · rename_i htype
        cases hframe : frameOf (u16 (e.bytes e.cmdBuf) 2) with
        | none =>
          rw [hframe] at h
          cases h
        | some frame =>
          rw [hframe, Prod.mk.injEq, Prod.mk.injEq, decide_eq_true_eq] at h
          obtain ⟨hlen, rfl, -⟩ := h
          exact .fixed hop htype hframe hlen

theorem cmdFrame_reads (h : e.recvLen = e.cmdBuf.size) :
    ∀ a ∈ (efpgCmdFrameProcess t e).2.2, a.Inside := by
  have hsum : (⟨e.cmdBuf, 0, e.recvLen⟩ : Access).Inside := inside_of_le 0 e.recvLen (by omega)
  have hdigest : (⟨.cmdFrame, 0, 8⟩ : Access).Inside := inside_of_le 0 8 le_rfl
  unfold efpgCmdFrameProcess
  dsimp only
  split
  · exact List.forall_mem_cons.mpr ⟨hsum, nofun⟩
  · have hparse := parseCmd_reads (e := e)
    generalize efpgParseCmd e = result at hparse ⊢
    obtain ⟨ok, e', reads⟩ := result
    have hreads : ∀ a ∈ (⟨e.cmdBuf, 0, e.recvLen⟩ : Access) :: reads, a.Inside :=
      List.forall_mem_cons.mpr ⟨hsum, hparse⟩
    cases ok with
    | false => exact hreads
    | true =>
      refine List.forall_mem_append.mpr ⟨hreads, ?_⟩
      unfold efpgRunCmd
      split
      · exact nofun
      · cases e'.op with
        | read => exact List.forall_mem_cons.mpr ⟨hdigest, nofun⟩
        | write => exact nofun
        | exit => exact nofun
        | num => exact nofun

theorem dataFrame_reads (hlen : efpgMsgDgstLen ≤ e.recvLen ∧ e.recvLen ≤ Buf.dataFrame.size) :
    ∀ a ∈ (efpgDataFrameProcess t e).2, a.Inside := by
  have hsub : ((e.recvLen : Int) - efpgMsgDgstLen) = ((e.recvLen - efpgMsgDgstLen : Nat) : Int) := by
    omega
  have hcmd : (⟨.cmdFrame, 0, 8⟩ : Access).Inside := inside_of_le 0 8 le_rfl
  have hdata : (⟨.dataFrame, 0, (e.recvLen : Int) - efpgMsgDgstLen⟩ : Access).Inside := by
    rw [hsub]
    exact inside_of_le 0 _ (by omega)
  have hdgst : (⟨.dataFrame, (e.recvLen : Int) - efpgMsgDgstLen, efpgMsgDgstLen⟩ :
      Access).Inside := by
    rw [hsub]
    exact inside_of_le _ _ (by omega)
  have hfield : ∀ a ∈ (writeFieldReads e.field e.startBitAddr e.bitLength).map dataAccess,
      a.Inside := by
    intro a hmem
    obtain ⟨area, harea, rfl⟩ := List.mem_map.mp hmem
    exact inside_of_le _ _ (writeFieldReads_le harea)
  unfold efpgDataFrameProcess
  cases t.sha with
  | none => simp [hcmd, hdata]
  | some cal =>
    dsimp only
    split
    · simp only [List.cons_append, List.nil_append, List.forall_mem_cons]
      exact ⟨hcmd, hdata, hdgst, hfield⟩
    · simp [hcmd, hdata, hdgst]

theorem turn_reads (h : Waiting e) : ∀ a ∈ (efpgTurn t e).2, a.Inside := by
  unfold efpgTurn
  dsimp only
  split
  · exact nofun
  · split
    · exact nofun
    · split
      · exact nofun
      · rename_i hlen
        have hlen := of_not_not hlen
        split
        · rename_i hcmd
          exact cmdFrame_reads (hlen.trans (h.cmd hcmd))
        · rename_i hcmd
          have hdata := h.data (Bool.eq_false_iff.mpr hcmd)
          rw [← hlen] at hdata
          exact dataFrame_reads hdata

theorem waiting_reset : Waiting (efpgReset e) := ⟨fun _ => rfl, nofun⟩

theorem waiting_ext (hcmd : e.isCmd = true) (hext : e.extCmd = true)
    (hlen : e.exptLen = efpgUaerAreaExtLen) : Waiting e := by
  refine ⟨fun _ => ?_, fun h => absurd hcmd (by simp [h])⟩
  rw [hlen, Priv.cmdBuf, if_pos hext]
  rfl

theorem waiting_data (len : Nat) (hlen : e.exptLen = efpgMsgDgstLen + len) (hle : len ≤ 76) :
    Waiting { e with isCmd := false, recvLen := 0 } := by
  refine ⟨nofun, fun _ => ?_⟩
  change efpgMsgDgstLen ≤ e.exptLen ∧ e.exptLen ≤ 76 + efpgMsgDgstLen
  omega

theorem userAreaLen_eq {bitLength : Nat} (h : bitLength < 2 ^ 16) :
    userAreaLen bitLength = efpgMsgDgstLen + (bitLength + 7) / 8 := by
  unfold userAreaLen efpgMsgDgstLen
  split <;> omega

theorem u16_lt {p : List UInt8} {off : Nat} : u16 p off < 2 ^ 16 := by
  have hlow := (p.getD off 0).toNat_lt
  have hhigh := (p.getD (off + 1) 0).toNat_lt
  unfold u16 u8
  omega

theorem next_ext (hw : t.ack = true → Waiting { e with isCmd := true, recvLen := 0 })
    (h : afterState (efpgExtCmdProcess t e).2 (efpgExtCmdProcess t e).1 = some e') :
    Waiting e' := by
  unfold efpgExtCmdProcess at h
  cases hack : t.ack with
  | true =>
    rw [hack] at h
    cases h
    exact hw hack
  | false =>
    rw [hack] at h
    cases h
    exact waiting_reset

theorem next_write (hw : t.ack = true → Waiting { e with isCmd := false, recvLen := 0 })
    (h : afterState (efpgWriteProcess t e).2 (efpgWriteProcess t e).1 = some e') :
    Waiting e' := by
  unfold efpgWriteProcess at h
  cases hack : t.ack with
  | true =>
    rw [hack] at h
    cases h
    exact hw hack
  | false =>
    rw [hack] at h
    cases h
    exact waiting_reset

theorem next_read (h : afterState e (efpgReadProcess t) = some e') : Waiting e' := by
  unfold efpgReadProcess at h
  split at h
  · split at h
    · cases h
    · cases h
      exact waiting_reset
  · cases h
    exact waiting_reset

theorem next_stop (h : afterState e (efpgStopProcess t) = some e') : Waiting e' := by
  unfold efpgStopProcess at h
  split at h
  · cases h
  · cases h
    exact waiting_reset

/-- What follows a command that is taken. -/
theorem next_run (hext : e.extCmd = true → t.ack = true →
      Waiting { e with isCmd := true, recvLen := 0 })
    (hwrite : e.extCmd = false → e.op = .write → t.ack = true →
      Waiting { e with isCmd := false, recvLen := 0 })
    (h : afterState (efpgRunCmd t e).2.1 (efpgRunCmd t e).1 = some e') : Waiting e' := by
  unfold efpgRunCmd at h
  cases hx : e.extCmd with
  | true =>
    rw [if_pos hx] at h
    exact next_ext (hext hx) h
  | false =>
    rw [if_neg (by simp [hx])] at h
    cases hop : e.op with
    | read =>
      rw [hop] at h
      exact next_read h
    | write =>
      rw [hop] at h
      exact next_write (hwrite hx hop) h
    | exit =>
      rw [hop] at h
      exact next_stop h
    | num =>
      rw [hop] at h
      cases h

/-- After a command the task waits for a frame that fits, but for the commands of `LongFields`. -/
theorem cmdFrame_next (hlen : e.exptLen = e.cmdBuf.size)
    (hno : ¬(e.extCmd = true ∧ efpgChecksum8 (e.bytes .extCmdFrame) e.recvLen = 0xFF ∧
      t.ack = true ∧ LongFields (e.bytes .extCmdFrame)))
    (h : afterState (efpgCmdFrameProcess t e).2.1 (efpgCmdFrameProcess t e).1 = some e') :
    Waiting e' := by
  unfold efpgCmdFrameProcess at h
  dsimp only at h
  split at h
  · cases h
    exact waiting_reset
  · rename_i hsum
    have hsum := of_not_not hsum
    generalize hparse : efpgParseCmd e = result at h
    obtain ⟨ok, e₁, reads⟩ := result
    cases ok with
    | false =>
      cases h
      exact waiting_reset
    | true =>
      dsimp only at h
      refine next_run ?_ ?_ h
      · intro hext hack
        cases parseCmd_ok hparse with
        | exit =>
          refine waiting_ext rfl hext (hlen.trans ?_)
          rw [Priv.cmdBuf, if_pos hext]
          rfl
        | userArea _ => exact waiting_ext rfl rfl rfl
        | ext _ _ _ _ => cases hext
        | fixed hop htype hframe hframeLen =>
          have hbuf : e.cmdBuf = .extCmdFrame := if_pos hext
          rw [hbuf] at hop htype hframe hframeLen hsum
          exact absurd ⟨hext, hsum, hack, .inr ⟨⟨_, hop⟩, htype, _, _, hframe, hframeLen⟩⟩ hno
      · intro hext hop hack
        cases parseCmd_ok hparse with
        | exit => cases hop
        | userArea _ => cases hext
        | @ext op version start bitLength hx hop' htype hbits =>
          obtain rfl : op = .write := hop
          have hbuf : e.cmdBuf = .extCmdFrame := if_pos hx
          rw [hbuf] at hsum
          have hle : bitLength ≤ 76 * 8 := by
            by_contra hgt
            exact hno ⟨hx, hsum, hack, .inl ⟨hop', htype, by omega⟩⟩
          exact waiting_data _ (userAreaLen_eq (hbits ▸ u16_lt)) (by omega)
        | @fixed op field frameLen hop' htype hframe hframeLen =>
          have hrange := frameOf_len hframe
          unfold efpgMsgDgstLen at hrange
          exact waiting_data (frameLen - 32) (by simp [efpgMsgDgstLen]; omega) (by omega)

theorem waiting_turn (h : Waiting e) (hno : ¬Overlong t e) (hturn : (efpgTurn t e).1 = some e') :
    Waiting e' := by
  unfold efpgTurn at hturn
  dsimp only at hturn
  split at hturn
  · cases hturn
  · rename_i hfails
    split at hturn
    · cases hturn
      exact h
    · split at hturn
      · cases hturn
        exact waiting_reset
      · rename_i hlen
        have hlen := of_not_not hlen
        split at hturn
        · rename_i hcmd
          have hsize : (received t e).exptLen = (received t e).cmdBuf.size := h.cmd hcmd
          refine cmdFrame_next hsize ?_ hturn
          rintro ⟨hext, hsum, hack, hfields⟩
          exact hno ⟨⟨hcmd, hext, Bool.eq_false_iff.mpr hfails, hlen⟩, hsum, hack, hfields⟩
        · have hstate : (efpgDataFrameProcess t (received t e)).1 = .reset := by
            unfold efpgDataFrameProcess
            split
            · rfl
            · split <;> rfl
          change afterState _ (efpgDataFrameProcess t (received t e)).1 = _ at hturn
          rw [hstate] at hturn
          cases hturn
          exact waiting_reset

/-! ## The frames that do not fit -/

theorem ne_exit_of_opOf {opCode : Nat} {op : Op} (h : opOf opCode = some op) :
    opCode ≠ efpgOpCodeExit := by
  rintro rfl
  cases h

theorem parseCmd_ext {op : Op} (hext : e.extCmd = true)
    (hop : opOf (u16 (e.bytes .extCmdFrame) 0) = some op)
    (htype : u16 (e.bytes .extCmdFrame) 2 = efpgTypeUserArea) :
    ∃ version start reads, efpgParseCmd e = (true, { e with
      op, protocolVersion := version, startBitAddr := start,
      bitLength := u16 (e.bytes .extCmdFrame) 10, extCmd := false, field := .ua,
      exptLen := userAreaLen (u16 (e.bytes .extCmdFrame) 10) }, reads) := by
  have hbuf : e.cmdBuf = .extCmdFrame := if_pos hext
  unfold efpgParseCmd
  dsimp only
  rw [hbuf, if_neg (ne_exit_of_opOf hop), hop]
  dsimp only
  rw [if_pos htype, if_pos hext]
  exact ⟨_, _, _, rfl⟩

theorem parseCmd_fixed {op : Op} (hop : opOf (u16 (e.bytes e.cmdBuf) 0) = some op)
    (htype : u16 (e.bytes e.cmdBuf) 2 ≠ efpgTypeUserArea)
    (hframe : frameOf (u16 (e.bytes e.cmdBuf) 2) = some (field, frameLen))
    (hlen : u16 (e.bytes e.cmdBuf) 4 = frameLen) :
    ∃ reads, efpgParseCmd e = (true, { e with op, field, exptLen := frameLen }, reads) := by
  unfold efpgParseCmd
  dsimp only
  rw [if_neg (ne_exit_of_opOf hop), hop]
  dsimp only
  rw [if_neg htype, hframe]
  dsimp only
  rw [decide_eq_true hlen]
  exact ⟨_, rfl⟩

theorem cmdFrame_long (hext : e.extCmd = true)
    (hsum : efpgChecksum8 (e.bytes .extCmdFrame) e.recvLen = 0xFF) (hack : t.ack = true)
    (hlong : LongFields (e.bytes .extCmdFrame)) :
    ∃ e', afterState (efpgCmdFrameProcess t e).2.1 (efpgCmdFrameProcess t e).1 = some e' ∧
      e'.buf.size < e'.exptLen := by
  have hbuf : e.cmdBuf = .extCmdFrame := if_pos hext
  unfold efpgCmdFrameProcess
  dsimp only
  rw [hbuf, if_neg (not_not.mpr hsum)]
  cases hlong with
  | inl hwrite =>
    obtain ⟨hop, htype, hbits⟩ := hwrite
    obtain ⟨version, start, reads, hparse⟩ := parseCmd_ext hext hop htype
    rw [hparse]
    simp only [efpgRunCmd, efpgWriteProcess, hack, if_true, Bool.false_eq_true, if_false]
    refine ⟨_, rfl, ?_⟩
    change 76 + efpgMsgDgstLen < userAreaLen _
    rw [userAreaLen_eq u16_lt]
    omega
  | inr hfixed =>
    obtain ⟨⟨op, hop⟩, htype, field, frameLen, hframe, hlen⟩ := hfixed
    rw [← hbuf] at hop htype hframe hlen
    obtain ⟨reads, hparse⟩ := parseCmd_fixed hop htype hframe hlen
    have hlong := (frameOf_len hframe).1
    rw [hparse]
    simp only [efpgRunCmd, efpgExtCmdProcess, hack, if_true, hext]
    refine ⟨_, rfl, ?_⟩
    change efpgUaerAreaExtLen < frameLen
    exact hlong.trans' (by decide)

theorem turn_long (ho : Overlong t e) :
    ∃ e', (efpgTurn t e).1 = some e' ∧ e'.buf.size < e'.exptLen := by
  obtain ⟨⟨hcmd, hext, hfails, hlen⟩, hsum, hack, hlong⟩ := ho
  have hrecv : (efpgTurn t e).1 = afterState (efpgCmdFrameProcess t (received t e)).2.1
      (efpgCmdFrameProcess t (received t e)).1 ∨ t.recv = [] := by
    by_cases hempty : t.recv = []
    · exact .inr hempty
    · left
      unfold efpgTurn
      rw [if_neg (by simp [hfails]), if_neg hempty, if_neg (not_not.mpr hlen)]
      exact congrArg Prod.fst (if_pos hcmd)
  cases hrecv with
  | inl hturn =>
    rw [hturn]
    exact cmdFrame_long hext hsum hack hlong
  | inr hempty =>
    -- nothing received has the sum zero
    rw [hempty] at hsum
    exact absurd hsum (by simp [efpgChecksum8])

theorem Waiting.fitting (h : Waiting e) : Fitting e := ⟨h.fits, fun _ _ => turn_reads h⟩

/-- The commands that `Overlong` names are exactly those after which a frame may not fit. -/
theorem fitting_turn_iff (h : Waiting e) :
    (∀ e', (efpgTurn t e).1 = some e' → Fitting e') ↔ ¬Overlong t e := by
  constructor
  · intro hfit ho
    obtain ⟨e', hturn, hlt⟩ := turn_long ho
    exact absurd (hfit e' hturn).1 (by omega)
  · intro hno e' hturn
    exact (waiting_turn h hno hturn).fitting

end

def Within : Option Priv → Turn → Prop
  | some e, t => ¬Overlong t e
  | none, _ => True

theorem waiting_step {s s' : Option Priv} {t : Turn} (h : ∀ e, s = some e → Waiting e)
    (hstep : Guarded Receive Within s t s') : ∀ e, s' = some e → Waiting e := by
  obtain ⟨hno, hrecv⟩ := hstep
  cases hrecv with
  | turn _ => exact fun e' hturn => waiting_turn (h _ rfl) hno hturn

theorem frames_ok {e₀ e : Priv} {ts : List Turn}
    (h : Run (Guarded Receive Within) (some (efpgReset e₀)) ts (some e)) : Fitting e := by
  have hwait := h.invariant (I := fun s => ∀ e, s = some e → Waiting e)
    (by
      intro e he
      cases he
      exact waiting_reset)
    fun _ _ _ => waiting_step
  exact (hwait e rfl).fitting

def boot : Priv where
  isCmd := true
  extCmd := false
  bytes := fun b => List.replicate b.size 0
  exptLen := 8
  recvLen := 0
  protocolVersion := 0
  startBitAddr := 0
  bitLength := 0
  op := .num
  field := .num

def frame (recv : List UInt8) : Turn := ⟨recv, false, true, true, some []⟩

/-- A command that announces an extended command of the user area. -/
def userAreaCmd : Turn := frame [0x0F, 0xF0, 0x05, 0xFA, 0x0D, 0x00, 0x01, 0xF3]

/-- A write of the user area of 65535 bits. -/
def longWrite : Turn :=
  frame [0x0F, 0xF0, 0x05, 0xFA, 0x00, 0x00, 0x00, 0x00, 0x00, 0x00, 0xFF, 0xFF, 0x03]

theorem userAreaCmd_next :
    ∃ e, (efpgTurn userAreaCmd boot).1 = some e ∧ (e.extCmd, e.exptLen) = (true, 13) :=
  Option.map_eq_some_iff.mp (by decide)

theorem frames_ok_userArea : ∃ e, Run Receive (some (efpgReset boot)) [userAreaCmd] (some e) ∧
    e.exptLen = 13 ∧ Fitting e := by
  obtain ⟨e, he, hlen⟩ := userAreaCmd_next
  have hrecv : Receive (some boot) userAreaCmd (efpgTurn userAreaCmd boot).1 := .turn (by decide)
  have hno : ¬Overlong userAreaCmd boot := fun h => absurd h.1.2.1 (by decide)
  rw [he] at hrecv
  have hrun : Run (Guarded Receive Within) (some (efpgReset boot)) [userAreaCmd] (some e) :=
    .single ⟨hno, hrecv⟩
  exact ⟨e, hrun.mono fun _ _ _ h => h.2, congrArg Prod.snd hlen, frames_ok hrun⟩

/-- The task waits for 8224 bytes of data, and its buffer has 108. -/
theorem write_too_long : ¬∀ (e₀ e : Priv) (ts : List Turn),
    Run Receive (some (efpgReset e₀)) ts (some e) → Fitting e := by
  intro hclaim
  obtain ⟨e₁, he₁, hlen₁⟩ := userAreaCmd_next
  have hnext : (((efpgTurn userAreaCmd boot).1.bind fun e => (efpgTurn longWrite e).1).map
      fun e => (e.isCmd, e.exptLen)) = some (false, 8224) := by decide
  rw [he₁] at hnext
  obtain ⟨e₂, he₂, hlen₂⟩ := Option.map_eq_some_iff.mp hnext
  have hrecv₁ : Receive (some boot) userAreaCmd (efpgTurn userAreaCmd boot).1 := .turn (by decide)
  have hrecv₂ : Receive (some e₁) longWrite (efpgTurn longWrite e₁).1 := by
    refine .turn ?_
    rw [show e₁.exptLen = 13 from congrArg Prod.snd hlen₁]
    decide
  rw [he₁] at hrecv₁
  rw [show (efpgTurn longWrite e₁).1 = some e₂ from he₂] at hrecv₂
  have hfit := (hclaim boot e₂ _ (.cons hrecv₁ (.single hrecv₂))).1
  rw [Prod.mk.injEq] at hlen₂
  rw [hlen₂.2, Priv.buf, if_neg (by simp [hlen₂.1])] at hfit
  exact absurd hfit (by decide)

end Efpg
end XR806

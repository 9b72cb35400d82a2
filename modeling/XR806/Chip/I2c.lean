import XR806.Trans.Along
import Mathlib.Algebra.Group.Nat.Defs
import Mathlib.Tactic.IntervalCases

/-!
# XR806.Chip.I2c

The transfers of one I2C port as master. An interrupt for each status of the bus lets the handler
write the next byte of the address, of the memory address or of the data. It counts a byte that it
has written, not one that the slave has acknowledged, it starts a plain read from a slave with a
10-bit address by the read address, and a wait that times out sends no stop. Every other transfer
follows the protocol of the bus and returns the bytes that were carried (`transfers_iff`).
-/

namespace XR806
namespace I2c

open Trans (Along along_iff along_forall)

abbrev Byte := BitVec 8

/-! ## The bus -/

/-- `I2C_IRQStatus`, as far as a master that loses no arbitration sees it. -/
inductive IrqStatus
  | startTran
  | reStartTran
  | addrWrTranAck
  | addrWrTranNack
  | masterDataTranAck
  | masterDataTranNack
  | addrRdTranAck
  | addrRdTranNack
  | masterDataRecvAck
  | masterDataRecvNack
  | secAddrWrAck
  | secAddrWrNack

inductive Event
  | start
  | restart
  | sent (b : Byte) (ack : Bool)
  | received (b : Byte) (ack : Bool)
  | stop
  deriving DecidableEq

/-- Whether a slave acknowledges each of the bytes it is sent, and the bytes that it sends. -/
structure Slave where
  acks : Nat → Bool
  data : Nat → Byte

/-- What has gone over the bus in a transfer, and how many bytes of it each way. -/
structure Log where
  trace : List Event
  sent : Nat
  received : Nat

def Log.empty : Log := ⟨[], 0, 0⟩

def Log.mark (l : Log) (e : Event) : Log := { l with trace := l.trace ++ [e] }

def Log.send (l : Log) (slave : Slave) (b : Byte) : Log :=
  { l with trace := l.trace ++ [.sent b (slave.acks l.sent)], sent := l.sent + 1 }

def Log.receive (l : Log) (slave : Slave) (ack : Bool) : Log :=
  { l with
    trace := l.trace ++ [.received (slave.data l.received) ack]
    received := l.received + 1 }

/-- What the next byte on the bus is. -/
inductive Phase
  | idle
  | address
  | secondAddress
  | transmit
  | receive
  | held
  deriving DecidableEq

/-- The registers `I2C_DATA` and `I2C_CTRL`, and the bus. -/
structure Controller where
  data : Byte
  irqEn : Bool
  ackEn : Bool
  start : Bool
  phase : Phase
  log : Log

/-- The prefix `11110` of the first byte of a 10-bit address. -/
def tenBitHead : BitVec 5 := 0b11110#5

/-- The next status that the controller reports. -/
def Controller.report (c : Controller) (slave : Slave) : Option (IrqStatus × Controller) :=
  let ack := slave.acks c.log.sent
  let sent (ackStatus nackStatus : IrqStatus) (phase : Phase) : Option (IrqStatus × Controller) :=
    some (if ack then ackStatus else nackStatus,
      { c with log := c.log.send slave c.data, phase := if ack then phase else .held })
  if !c.irqEn then none
  else if c.start then
    if c.phase = .idle then
      some (.startTran, { c with start := false, phase := .address, log := c.log.mark .start })
    else
      some (.reStartTran, { c with start := false, phase := .address, log := c.log.mark .restart })
  else
    match c.phase with
    | .idle => none
    | .held => none
    | .address =>
      if c.data.getLsbD 0 then sent .addrRdTranAck .addrRdTranNack .receive
      else if c.data.extractLsb' 3 5 = tenBitHead then
        sent .addrWrTranAck .addrWrTranNack .secondAddress
      else sent .addrWrTranAck .addrWrTranNack .transmit
    | .secondAddress => sent .secAddrWrAck .secAddrWrNack .transmit
    | .transmit => sent .masterDataTranAck .masterDataTranNack .transmit
    | .receive =>
      some (if c.ackEn then .masterDataRecvAck else .masterDataRecvNack,
        { c with
          data := slave.data c.log.received
          log := c.log.receive slave c.ackEn
          phase := if c.ackEn then .receive else .held })

/-! ## The driver -/

/-- `I2C_Private`, with the bits of `ctrl` and `buf` as an offset from the caller's buffer. -/
structure Private where
  bit7 : Bool
  readMode : Bool
  memMode : Bool
  restart : Bool
  memAddrSizeCnt : Nat
  devAddr : BitVec 16
  memAddr : BitVec 32
  buf : Nat
  size : Int
  sem : Bool

/-- `mem` is the memory from the caller's buffer on, `touched` where the driver has accessed it. -/
structure State where
  priv : Private
  i2c : Controller
  mem : Nat → Byte
  touched : List Nat

def memAddSec (addresses : BitVec 32) (shift : Nat) : Byte :=
  ((addresses >>> (8 * shift)) &&& 0xFF).setWidth 8

def Private.get7BitAddrRd (priv : Private) : Byte := ((priv.devAddr <<< 1) ||| 0x1).setWidth 8

def Private.get7BitAddrWr (priv : Private) : Byte := ((priv.devAddr <<< 1) ||| 0x0).setWidth 8

def Private.get10BitAddr1Rd (priv : Private) : Byte :=
  (((priv.devAddr >>> 7).setWidth 8) &&& ~~~0x08) ||| 0xF1

def Private.get10BitAddr1Wr (priv : Private) : Byte :=
  (((priv.devAddr >>> 7).setWidth 8) &&& ~~~0x09) ||| 0xF0

def Private.get10BitAddr2 (priv : Private) : Byte := (priv.devAddr &&& 0xFF).setWidth 8

def State.putData (s : State) (data : Byte) : State :=
  { s with i2c := { s.i2c with data := data } }

def State.sendStart (s : State) : State := { s with i2c := { s.i2c with start := true } }

def State.sendStop (s : State) : State :=
  { s with i2c := { s.i2c with phase := .idle, log := s.i2c.log.mark .stop } }

def State.disableACK (s : State) : State := { s with i2c := { s.i2c with ackEn := false } }

def State.setRestartBit (s : State) : State := { s with priv := { s.priv with restart := true } }

def State.semaphoreRelease (s : State) : State := { s with priv := { s.priv with sem := true } }

/-- A byte of the memory address; `memAddrSizeCnt` is a `uint8_t`. -/
def State.putMemAddr (s : State) : State :=
  let cnt := (s.priv.memAddrSizeCnt + 255) % 256
  let s := { s with priv := { s.priv with memAddrSizeCnt := cnt } }
  s.putData (memAddSec s.priv.memAddr cnt)

/-- A byte of the buffer to the data register. -/
def State.putBuf (s : State) : State :=
  let s' := s.putData (s.mem s.priv.buf)
  { s' with
    touched := s.touched ++ [s.priv.buf]
    priv := { s.priv with buf := s.priv.buf + 1, size := s.priv.size - 1 } }

/-- A byte of the data register to the buffer. -/
def State.getBuf (s : State) : State :=
  { s with
    mem := fun i => if i = s.priv.buf then s.i2c.data else s.mem i
    touched := s.touched ++ [s.priv.buf]
    priv := { s.priv with buf := s.priv.buf + 1, size := s.priv.size - 1 } }

/-- The `switch` of `I2C_IRQHandler`, and `end`. -/
def irqSwitch (status : IrqStatus) (s : State) : State × Bool :=
  match status with
  | .startTran =>
    if s.priv.bit7 then
      if !s.priv.memMode && s.priv.readMode then (s.putData s.priv.get7BitAddrRd, false)
      else (s.putData s.priv.get7BitAddrWr, false)
    else if !s.priv.memMode && s.priv.readMode then (s.putData s.priv.get10BitAddr1Rd, false)
    else (s.putData s.priv.get10BitAddr1Wr, false)
  | .reStartTran =>
    if s.priv.bit7 then (s.putData s.priv.get7BitAddrRd, false)
    else (s.putData s.priv.get10BitAddr1Rd, false)
  | .addrWrTranAck =>
    if s.priv.bit7 then
      if s.priv.memMode then (s.putMemAddr, false) else (s.putBuf, false)
    else (s.putData s.priv.get10BitAddr2, false)
  | .addrRdTranAck =>
    let s := if !s.priv.bit7 then s.putData s.priv.get10BitAddr2 else s
    if s.priv.size = 1 then (s.disableACK, false) else (s, false)
  | .secAddrWrAck => if s.priv.memMode then (s.putMemAddr, false) else (s.putBuf, false)
  | .masterDataTranAck =>
    if 0 < s.priv.memAddrSizeCnt then (s.putMemAddr, false)
    else if s.priv.memMode && s.priv.readMode then (s.sendStart.setRestartBit, false)
    else if 0 < s.priv.size then (s.putBuf, false)
    else (s, true)
  | .masterDataRecvAck =>
    let s := s.getBuf
    if s.priv.size = 1 then (s.disableACK, false) else (s, false)
  | .masterDataRecvNack => (s.getBuf, true)
  | _ => (s, true)

def irqHandler (status : IrqStatus) (s : State) : State :=
  let (s, fin) := irqSwitch status s
  if fin then s.sendStop.semaphoreRelease else s

/-- One interrupt, if the controller has a status to report. -/
def State.serve (s : State) (slave : Slave) : State :=
  match s.i2c.report slave with
  | none => s
  | some (status, i2c) => irqHandler status { s with i2c := i2c }

/-- The wait for the semaphore, with the interrupts that come before it times out. -/
def semaphoreWait (slave : Slave) : Nat → State → State
  | 0, s => if s.priv.sem then { s with priv := { s.priv with sem := false } } else s
  | irqs + 1, s =>
    if s.priv.sem then { s with priv := { s.priv with sem := false } }
    else semaphoreWait slave irqs (s.serve slave)

inductive MemAddrSize
  | invalid
  | bit8
  | bit16
  | bit32
  deriving DecidableEq

def MemAddrSize.count : MemAddrSize → Nat
  | .invalid => 0
  | .bit8 => 1
  | .bit16 => 2
  | .bit32 => 4

/-- The log is that of this transfer. -/
def masterCommon (slave : Slave) (irqs : Nat) (devAddr : BitVec 16) (memAddr : BitVec 32)
    (memAddrSize : MemAddrSize) (buf : Nat → Byte) (size : Int) (s : State) : Int × State :=
  if size ≤ 0 then (-1, s)
  else
    let priv := { s.priv with
      devAddr := devAddr
      memAddr := memAddr
      memAddrSizeCnt := memAddrSize.count
      buf := 0
      size := size }
    let i2c := { s.i2c with ackEn := true, irqEn := true, start := true, log := .empty }
    let s := semaphoreWait slave irqs { priv := priv, i2c := i2c, mem := buf, touched := [] }
    (size - s.priv.size,
      { s with
        priv := { s.priv with devAddr := 0, memAddr := 0, memAddrSizeCnt := 0, buf := 0, size := 0 }
        i2c := { s.i2c with irqEn := false, ackEn := false } })

def State.setModes (s : State) (readMode memMode : Bool) : State :=
  { s with
    priv := { s.priv with readMode := readMode, memMode := memMode, restart := false } }

def masterTransmitIt (slave : Slave) (irqs : Nat) (devAddr : BitVec 16) (buf : Nat → Byte)
    (size : Int) (s : State) : Int × State :=
  masterCommon slave irqs devAddr 0 .invalid buf size (s.setModes false false)

def masterReceiveIt (slave : Slave) (irqs : Nat) (devAddr : BitVec 16) (buf : Nat → Byte)
    (size : Int) (s : State) : Int × State :=
  masterCommon slave irqs devAddr 0 .invalid buf size (s.setModes true false)

def masterTransmitMemIt (slave : Slave) (irqs : Nat) (devAddr : BitVec 16) (memAddr : BitVec 32)
    (memAddrSize : MemAddrSize) (buf : Nat → Byte) (size : Int) (s : State) : Int × State :=
  masterCommon slave irqs devAddr memAddr memAddrSize buf size (s.setModes false true)

def masterReceiveMemIt (slave : Slave) (irqs : Nat) (devAddr : BitVec 16) (memAddr : BitVec 32)
    (memAddrSize : MemAddrSize) (buf : Nat → Byte) (size : Int) (s : State) : Int × State :=
  masterCommon slave irqs devAddr memAddr memAddrSize buf size (s.setModes true true)

inductive AddrMode
  | bit7
  | bit10
  deriving DecidableEq

/-- Behind `HAL_I2C_Init`. -/
def init (mode : AddrMode) : State where
  priv := {
    bit7 := mode = .bit7
    readMode := false
    memMode := false
    restart := false
    memAddrSizeCnt := 0
    devAddr := 0
    memAddr := 0
    buf := 0
    size := 0
    sem := false }
  i2c := {
    data := 0
    irqEn := false
    ackEn := false
    start := false
    phase := .idle
    log := .empty }
  mem := fun _ => 0
  touched := []

/-! ## What a transfer is on the bus -/

/-- What a master does on the bus. -/
inductive Item
  | start
  | restart
  | send (b : Byte)
  | take (ack : Bool)
  deriving DecidableEq

def Log.play (l : Log) (slave : Slave) : Item → Log
  | .start => l.mark .start
  | .restart => l.mark .restart
  | .send b => l.send slave b
  | .take ack => l.receive slave ack

/-- A slave that does not acknowledge ends the transfer. -/
def Item.goesOn (slave : Slave) (l : Log) : Item → Bool
  | .send _ => slave.acks l.sent
  | _ => true

def Log.follow (slave : Slave) : Log → List Item → Log
  | l, [] => l
  | l, x :: xs => if x.goesOn slave l then (l.play slave x).follow slave xs else l.play slave x

/-- The addresses of the bus; those that begin as a 10-bit address does are no 7-bit addresses. -/
inductive Address : AddrMode → Type
  | bit7 (a : BitVec 7) (h : a.extractLsb' 2 5 ≠ tenBitHead) : Address .bit7
  | bit10 (a : BitVec 10) : Address .bit10

structure MemAddr where
  addr : BitVec 32
  size : MemAddrSize
  valid : size ≠ .invalid

structure Transfer (mode : AddrMode) where
  address : Address mode
  memory : Option MemAddr
  read : Bool
  buf : Nat → Byte
  size : Nat
  pos : 0 < size

section

variable {mode : AddrMode}

def Address.devAddr : Address mode → BitVec 16
  | .bit7 a _ => a.setWidth 16
  | .bit10 a => a.setWidth 16

/-- The first byte of an address, with the bit for the direction. -/
def Address.first (read : Bool) : Address mode → Byte
  | .bit7 a _ => a ++ BitVec.ofBool read
  | .bit10 a => tenBitHead ++ a.extractLsb' 8 2 ++ BitVec.ofBool read

/-- The low byte of a memory address of `n` bytes comes last. -/
def memoryItems (addr : BitVec 32) : Nat → List Item
  | 0 => []
  | n + 1 => .send (addr.extractLsb' (8 * n) 8) :: memoryItems addr n

namespace Transfer

/-- A plain read from a 7-bit address starts with the read address. -/
def addressing (t : Transfer mode) : List Item :=
  match t.address with
  | .bit7 a h => [.send ((Address.bit7 a h).first (t.read && t.memory.isNone))]
  | .bit10 a => [.send ((Address.bit10 a).first false), .send (a.extractLsb' 0 8)]

def memorySize (t : Transfer mode) : Nat :=
  match t.memory with
  | none => 0
  | some m => m.size.count

def memoryAddr (t : Transfer mode) : BitVec 32 :=
  match t.memory with
  | none => 0
  | some m => m.addr

/-- The repeated start of a read that has sent a write address. -/
def turn (t : Transfer mode) : List Item :=
  if t.read && (t.memory.isSome || mode = .bit10) then [.restart, .send (t.address.first true)]
  else []

def header (t : Transfer mode) : List Item :=
  .start :: (t.addressing ++ memoryItems t.memoryAddr t.memorySize ++ t.turn)

/-- The data from byte `k` on, with `n` bytes left. -/
def dataFrom (t : Transfer mode) (k : Nat) : Nat → List Item
  | 0 => []
  | n + 1 => (if t.read then .take (n ≠ 0) else .send (t.buf k)) :: t.dataFrom (k + 1) n

def script (t : Transfer mode) : List Item := t.header ++ t.dataFrom 0 t.size

/-- What goes over the bus before the stop. -/
def trace (t : Transfer mode) (slave : Slave) : List Event :=
  (Log.empty.follow slave t.script).trace

end Transfer

/-- A write of two bytes to the 10-bit address `0x2A5`, and its second byte is refused. -/
example :
    (Transfer.mk (.bit10 0x2A5) none false (fun i => BitVec.ofNat 8 i) 2 (by decide)).trace
        ⟨fun i => i < 3, fun _ => 0⟩ =
      [.start, .sent 0xF4 true, .sent 0xA5 true, .sent 0 true, .sent 1 false] := by
  decide

/-- A data byte that the slave has acknowledged or sent. -/
def Event.carried : Event → Bool
  | .sent _ ack => ack
  | .received _ _ => true
  | _ => false

namespace Transfer

/-- The data bytes that are carried. -/
def transferred (t : Transfer mode) (slave : Slave) : Nat :=
  ((t.trace slave).drop t.header.length).countP Event.carried

/-- The caller's memory with `k` bytes received. -/
def stored (t : Transfer mode) (slave : Slave) (k : Nat) (i : Nat) : Byte :=
  if t.read && i < k then slave.data i else t.buf i

end Transfer

/-! ## Runs -/

/-- A transfer, the slave it meets, and how many interrupts come before the wait times out. -/
structure Call (mode : AddrMode) where
  transfer : Transfer mode
  slave : Slave
  irqs : Nat

/-- By the call for its direction, with or without a memory address. -/
def Call.run (c : Call mode) (s : State) : Int × State :=
  let t := c.transfer
  match t.memory with
  | none =>
    if t.read then masterReceiveIt c.slave c.irqs t.address.devAddr t.buf t.size s
    else masterTransmitIt c.slave c.irqs t.address.devAddr t.buf t.size s
  | some m =>
    if t.read then
      masterReceiveMemIt c.slave c.irqs t.address.devAddr m.addr m.size t.buf t.size s
    else masterTransmitMemIt c.slave c.irqs t.address.devAddr m.addr m.size t.buf t.size s

def next (s : State) (c : Call mode) : State := (c.run s).2

/-- A transfer follows the protocol up to its stop, stays within the buffer and returns how many
bytes were carried, which are those a read has stored. -/
structure Meets (s : State) (c : Call mode) : Prop where
  bus : (c.run s).2.i2c.log.trace = c.transfer.trace c.slave ++ [.stop]
  within : ∀ i ∈ (c.run s).2.touched, i < c.transfer.size
  buffer : (c.run s).2.mem =
    c.transfer.stored c.slave (c.transfer.transferred c.slave)
  count : (c.run s).1 = c.transfer.transferred c.slave

def Item.isSend : Item → Bool
  | .send _ => true
  | _ => false

/-- How many bytes of address go before the data. -/
def Transfer.addressBytes (t : Transfer mode) : Nat := t.header.countP Item.isSend

/-- It is no plain read from a 10-bit address, a write is refused at a byte of an address or not at
all, and the wait is long enough. -/
structure Call.Good (c : Call mode) : Prop where
  addressed : ¬(mode = .bit10 ∧ c.transfer.memory = none ∧ c.transfer.read = true)
  acked : c.transfer.read = false →
    (∃ i < c.transfer.addressBytes, c.slave.acks i = false) ∨
      ∀ i < c.transfer.addressBytes + c.transfer.size, c.slave.acks i = true
  waited : (c.transfer.trace c.slave).length ≤ c.irqs

end

/-! ## The bytes of the addresses -/

section

variable {mode : AddrMode} {priv : Private} {n : Nat}

theorem get7BitAddrRd_eq {a : BitVec 7} (h : priv.devAddr = a.setWidth 16) :
    priv.get7BitAddrRd = a ++ 1#1 := by
  rw [Private.get7BitAddrRd, h]
  ext i hi
  simp
  grind

theorem get7BitAddrWr_eq {a : BitVec 7} (h : priv.devAddr = a.setWidth 16) :
    priv.get7BitAddrWr = a ++ 0#1 := by
  rw [Private.get7BitAddrWr, h]
  ext i hi
  simp
  grind

theorem get10BitAddr1Rd_eq {a : BitVec 10} (h : priv.devAddr = a.setWidth 16) :
    priv.get10BitAddr1Rd = (tenBitHead ++ a.extractLsb' 8 2 ++ 1#1 : BitVec (5 + 2 + 1)) := by
  rw [Private.get10BitAddr1Rd, h]
  apply BitVec.eq_of_getLsbD_eq
  intro i hi
  rw [BitVec.getLsbD_append, BitVec.getLsbD_append]
  interval_cases i <;> simp [tenBitHead]

theorem get10BitAddr1Wr_eq {a : BitVec 10} (h : priv.devAddr = a.setWidth 16) :
    priv.get10BitAddr1Wr = (tenBitHead ++ a.extractLsb' 8 2 ++ 0#1 : BitVec (5 + 2 + 1)) := by
  rw [Private.get10BitAddr1Wr, h]
  apply BitVec.eq_of_getLsbD_eq
  intro i hi
  rw [BitVec.getLsbD_append, BitVec.getLsbD_append]
  interval_cases i <;> simp [tenBitHead]

theorem get10BitAddr2_eq {a : BitVec 10} (h : priv.devAddr = a.setWidth 16) :
    priv.get10BitAddr2 = a.extractLsb' 0 8 := by
  rw [Private.get10BitAddr2, h]
  ext i hi
  interval_cases i <;> simp

theorem memAddSec_eq (addr : BitVec 32) : memAddSec addr n = addr.extractLsb' (8 * n) 8 := by
  rw [memAddSec]
  ext i hi
  interval_cases i <;> simp

/-- The direction is the low bit of the first byte of an address. -/
theorem first_bit (a : Address mode) (read : Bool) : (a.first read)[0] = read := by
  rw [← BitVec.getLsbD_eq_getElem]
  cases a with
  | bit7 a h => exact BitVec.getLsbD_append.trans (by simp)
  | bit10 a => exact BitVec.getLsbD_append.trans (by simp)

theorem first_tenBit (a : Address mode) (read : Bool) :
    (a.first read).extractLsb' 3 5 = tenBitHead ↔ mode = .bit10 := by
  cases a with
  | bit7 a h =>
    have hbits : (Address.first read (.bit7 a h)).extractLsb' 3 5 = a.extractLsb' 2 5 := by
      apply BitVec.eq_of_getLsbD_eq
      intro i hi
      rw [BitVec.getLsbD_extractLsb', BitVec.getLsbD_extractLsb']
      refine congrArg (decide (i < 5) && ·) (BitVec.getLsbD_append.trans ?_)
      interval_cases i <;> rfl
    rw [hbits]
    exact ⟨fun h' => absurd h' h, fun h' => absurd h' (by decide)⟩
  | bit10 a =>
    refine ⟨fun _ => rfl, fun _ => BitVec.eq_of_getLsbD_eq fun i hi => ?_⟩
    rw [BitVec.getLsbD_extractLsb']
    refine (congrArg (decide (i < 5) && ·)
      (BitVec.getLsbD_append.trans (congrArg _ BitVec.getLsbD_append))).trans ?_
    interval_cases i <;> rfl

theorem first_ne (a : Address mode) : a.first true ≠ a.first false := by
  intro h
  have hbit : (a.first true)[0] = (a.first false)[0] := congrArg (fun b : Byte => b[0]) h
  rw [first_bit, first_bit] at hbit
  exact Bool.false_ne_true hbit.symm

end

/-! ## Where a transfer is -/

section

variable {mode : AddrMode}

namespace Transfer

/-- The driver's record with `cnt` bytes of the memory address to go and `k` bytes of the buffer
done. -/
def priv (t : Transfer mode) (restart : Bool) (cnt k : Nat) : Private where
  bit7 := mode = .bit7
  readMode := t.read
  memMode := t.memory.isSome
  restart := restart
  memAddrSizeCnt := cnt
  devAddr := t.address.devAddr
  memAddr := t.memoryAddr
  buf := k
  size := t.size - k
  sem := false

def state (t : Transfer mode) (slave : Slave) (restart : Bool) (cnt k : Nat) (c : Controller) :
    State where
  priv := t.priv restart cnt k
  i2c := c
  mem := t.stored slave k
  touched := List.range k

def data (t : Transfer mode) : List Item := t.dataFrom 0 t.size

/-- What comes behind the address bytes. -/
def body (t : Transfer mode) : List Item :=
  memoryItems t.memoryAddr t.memorySize ++ t.turn ++ t.data

/-- The transfer reads, and its first address is the read address. -/
def plainRead (t : Transfer mode) : Bool := t.read && t.memory.isNone

end Transfer

variable {t : Transfer mode} {slave : Slave} {l : Log} {s : State} {x : Item} {xs : List Item}
  {restart ackEn : Bool} {cnt k n : Nat} {c : Controller} {d : Byte}

/-- The driver is in the state `s` before the items that are left. -/
inductive Ready (t : Transfer mode) (slave : Slave) : List Item → Log → State → Prop
  | start (l : Log) (d : Byte) (h : l.received = 0) :
    Ready t slave (.start :: (t.addressing ++ t.body)) l
      (t.state slave false t.memorySize 0 ⟨d, true, true, true, .idle, l⟩)
  | first (l : Log) (h : l.received = 0) (hr : t.plainRead = false) :
    Ready t slave (t.addressing ++ t.body) l
      (t.state slave false t.memorySize 0 ⟨t.address.first false, true, true, false, .address, l⟩)
  | second (l : Log) (d : Byte) (h : l.received = 0) (hr : t.plainRead = false)
      (hmode : mode = .bit10) :
    Ready t slave (.send d :: t.body) l
      (t.state slave false t.memorySize 0 ⟨d, true, true, false, .secondAddress, l⟩)
  | memory (l : Log) (i : Nat) (h : l.received = 0) (hm : t.memory.isSome = true) (hi : i < 4) :
    Ready t slave (memoryItems t.memoryAddr (i + 1) ++ t.turn ++ t.data) l
      (t.state slave false i 0
        ⟨t.memoryAddr.extractLsb' (8 * i) 8, true, true, false, .transmit, l⟩)
  | turn (l : Log) (d : Byte) (h : l.received = 0) (hr : t.read = true) :
    Ready t slave (.restart :: .send (t.address.first true) :: t.data) l
      (t.state slave true 0 0 ⟨d, true, true, true, .transmit, l⟩)
  | again (l : Log) (restart : Bool) (h : l.received = 0) (hr : t.read = true) :
    Ready t slave (.send (t.address.first true) :: t.data) l
      (t.state slave restart 0 0 ⟨t.address.first true, true, true, false, .address, l⟩)
  | write (l : Log) (k n : Nat) (hr : t.read = false) (hk : t.size = k + (n + 1)) :
    Ready t slave (t.dataFrom k (n + 1)) l
      (t.state slave false 0 (k + 1) ⟨t.buf k, true, true, false, .transmit, l⟩)
  | take (l : Log) (d : Byte) (restart : Bool) (k n : Nat) (h : l.received = k)
      (hr : t.read = true) (hk : t.size = k + (n + 1)) :
    Ready t slave (t.dataFrom k (n + 1)) l
      (t.state slave restart 0 k ⟨d, true, n ≠ 0, false, .receive, l⟩)

/-- The driver has sent the stop with so many items left. -/
structure Done (t : Transfer mode) (slave : Slave) (left : Nat) (l : Log) (s : State) : Prop where
  sem : s.priv.sem = true
  bit7 : s.priv.bit7 = decide (mode = .bit7)
  size : s.priv.size = t.size - (t.size - left : Nat)
  phase : s.i2c.phase = .idle
  start : s.i2c.start = false
  log : s.i2c.log = l.mark .stop
  mem : s.mem = t.stored slave (t.size - left)
  touched : s.touched = List.range (t.size - left)

theorem done_state (hk : k = t.size - n) (hstart : c.start = false) (hlog : c.log = l) :
    Done t slave n l (t.state slave restart cnt k c).sendStop.semaphoreRelease where
  sem := rfl
  bit7 := rfl
  size := by rw [← hk]; rfl
  phase := rfl
  start := hstart
  log := congrArg (Log.mark · .stop) hlog
  mem := by rw [← hk]; rfl
  touched := by rw [← hk]; rfl

/-! ## What the handler does -/

theorem serve_state {status : IrqStatus} {c' : Controller}
    (h : c.report slave = some (status, c')) :
    (t.state slave restart cnt k c).serve slave =
      irqHandler status (t.state slave restart cnt k c') := by
  have hreport : (t.state slave restart cnt k c).i2c.report slave = some (status, c') := h
  rw [State.serve, hreport]
  rfl

section

attribute [local simp] irqHandler irqSwitch Transfer.state Transfer.priv

theorem irq_start :
    irqHandler .startTran (t.state slave restart cnt k c) =
      (t.state slave restart cnt k c).putData (t.address.first t.plainRead) := by
  obtain ⟨address, memory, read, buf, size, pos⟩ := t
  cases address with
  | bit7 a h =>
    cases memory <;> cases read <;>
      simp [Transfer.plainRead, Address.first, get7BitAddrRd_eq (a := a),
        get7BitAddrWr_eq (a := a), Address.devAddr]
  | bit10 a =>
    cases memory <;> cases read <;>
      simp [Transfer.plainRead, Address.first, get10BitAddr1Rd_eq (a := a),
        get10BitAddr1Wr_eq (a := a), Address.devAddr]

theorem irq_restart :
    irqHandler .reStartTran (t.state slave restart cnt k c) =
      (t.state slave restart cnt k c).putData (t.address.first true) := by
  obtain ⟨address, memory, read, buf, size, pos⟩ := t
  cases address with
  | bit7 a h =>
    simp [Address.first, get7BitAddrRd_eq (a := a), Address.devAddr]
  | bit10 a =>
    simp [Address.first, get10BitAddr1Rd_eq (a := a), Address.devAddr]

theorem irq_addrWr_bit7 {t : Transfer .bit7} :
    irqHandler .addrWrTranAck (t.state slave restart cnt k c) =
      if t.memory.isSome then (t.state slave restart cnt k c).putMemAddr
      else (t.state slave restart cnt k c).putBuf := by
  cases hm : t.memory.isSome <;> simp [hm]

theorem irq_addrWr_bit10 {t : Transfer .bit10} :
    irqHandler .addrWrTranAck (t.state slave restart cnt k c) =
      (t.state slave restart cnt k c).putData (t.priv restart cnt k).get10BitAddr2 := by
  simp

theorem irq_secAddrWr :
    irqHandler .secAddrWrAck (t.state slave restart cnt k c) =
      if t.memory.isSome then (t.state slave restart cnt k c).putMemAddr
      else (t.state slave restart cnt k c).putBuf := by
  cases hm : t.memory.isSome <;> simp [hm]

theorem irq_addrRd :
    irqHandler .addrRdTranAck (t.state slave restart cnt k c) =
      t.state slave restart cnt k { c with
        data := if mode = .bit7 then c.data else (t.priv restart cnt k).get10BitAddr2
        ackEn := c.ackEn && t.size ≠ k + 1 } := by
  have hsize : (t.size : Int) - k = 1 ↔ t.size = k + 1 := by omega
  by_cases hone : t.size = k + 1 <;> by_cases hmode : mode = .bit7 <;>
    simp [hsize, hone, hmode, State.putData, State.disableACK]

end

theorem stored_write (hr : t.read = false) : t.stored slave k = t.buf := by
  funext i
  simp [Transfer.stored, hr]

theorem putBuf_state (hr : t.read = false) :
    (t.state slave restart cnt k c).putBuf =
      t.state slave restart cnt (k + 1) { c with data := t.buf k } := by
  simp only [State.putBuf, State.putData, Transfer.state, Transfer.priv, stored_write hr,
    List.range_succ, State.mk.injEq, Private.mk.injEq, true_and, and_true]
  omega

theorem getBuf_state (hr : t.read = true) (hd : c.data = slave.data k) :
    (t.state slave restart cnt k c).getBuf = t.state slave restart cnt (k + 1) c := by
  simp only [State.getBuf, Transfer.state, Transfer.priv, List.range_succ, State.mk.injEq,
    Private.mk.injEq, true_and, and_true]
  refine ⟨by omega, funext fun i => ?_⟩
  obtain hi | rfl | hi := Nat.lt_trichotomy i k
  · simp [Transfer.stored, hi.ne, hi, Nat.lt_succ_of_lt hi]
  · simp [Transfer.stored, hr, hd]
  · simp [Transfer.stored, hi.ne', Nat.not_lt_of_gt hi, Nat.not_lt_of_ge (Nat.succ_le_of_lt hi)]

theorem irq_dataRecv (hr : t.read = true) (hd : c.data = slave.data k) :
    irqHandler .masterDataRecvAck (t.state slave restart cnt k c) =
      t.state slave restart cnt (k + 1) { c with ackEn := c.ackEn && t.size ≠ k + 1 + 1 } := by
  have hsize : (t.state slave restart cnt (k + 1) c).priv.size = 1 ↔ t.size = k + 1 + 1 := by
    simp only [Transfer.state, Transfer.priv]
    omega
  by_cases hone : t.size = k + 1 + 1
  · rw [irqHandler, irqSwitch, getBuf_state hr hd, if_pos (hsize.mpr hone)]
    simp [State.disableACK, Transfer.state, hone]
  · rw [irqHandler, irqSwitch, getBuf_state hr hd, if_neg (hone ∘ hsize.mp)]
    simp [hone]

theorem putMemAddr_state (hn : n < 4) :
    (t.state slave restart (n + 1) k c).putMemAddr =
      t.state slave restart n k { c with data := t.memoryAddr.extractLsb' (8 * n) 8 } := by
  have hcnt : (n + 1 + 255) % 256 = n := by omega
  simp only [State.putMemAddr, State.putData, Transfer.state, Transfer.priv, hcnt, memAddSec_eq]

theorem memorySize_none (h : t.memory.isSome = false) : t.memorySize = 0 := by
  rw [Transfer.memorySize, Option.isSome_eq_false_iff.mp h |> Option.isNone_iff_eq_none.mp]

theorem memorySize_some (h : t.memory.isSome = true) :
    ∃ i < 4, t.memorySize = i + 1 := by
  obtain ⟨m, hm⟩ := Option.isSome_iff_exists.mp h
  have hvalid := m.valid
  rw [Transfer.memorySize, hm]
  dsimp only
  cases hsize : m.size with
  | invalid => exact absurd hsize hvalid
  | bit8 => exact ⟨0, by decide, rfl⟩
  | bit16 => exact ⟨1, by decide, rfl⟩
  | bit32 => exact ⟨3, by decide, rfl⟩

/-- Behind the address the handler begins with the memory address or the data. -/
theorem ready_body (hr : t.plainRead = false) (h : l.received = 0) :
    Ready t slave t.body l
      (if t.memory.isSome then
        (t.state slave false t.memorySize 0 ⟨d, true, true, false, .transmit, l⟩).putMemAddr
      else (t.state slave false t.memorySize 0 ⟨d, true, true, false, .transmit, l⟩).putBuf) := by
  by_cases hm : t.memory.isSome = true
  · obtain ⟨i, hi, hsize⟩ := memorySize_some hm
    rw [if_pos hm, Transfer.body, hsize, putMemAddr_state hi]
    exact .memory l i h hm hi
  · have hnone := Bool.not_eq_true _ ▸ hm
    have hread : t.read = false := by
      simpa [Transfer.plainRead, Option.not_isSome_iff_eq_none.mp hm] using hr
    obtain ⟨n, hn⟩ := Nat.exists_eq_succ_of_ne_zero t.pos.ne'
    rw [if_neg hm, memorySize_none hnone, putBuf_state hread]
    have hbody : t.body = t.dataFrom 0 (n + 1) := by
      rw [Transfer.body, memorySize_none hnone, Transfer.turn, hread, Transfer.data, hn]
      simp [memoryItems]
    rw [hbody]
    exact .write l 0 n hread (by omega)

/-- Behind a byte of the memory address the handler goes on with the next, the repeated start or the
data. -/
theorem ready_memory {i : Nat} (h : l.received = 0) (hm : t.memory.isSome = true) (hi : i < 4) :
    Ready t slave (memoryItems t.memoryAddr i ++ t.turn ++ t.data) l
      (irqHandler .masterDataTranAck
        (t.state slave false i 0 ⟨d, true, true, false, .transmit, l⟩)) := by
  cases i with
  | succ i =>
    have hput : irqHandler .masterDataTranAck
        (t.state slave false (i + 1) 0 ⟨d, true, true, false, .transmit, l⟩) =
        (t.state slave false (i + 1) 0 ⟨d, true, true, false, .transmit, l⟩).putMemAddr := by
      simp [irqHandler, irqSwitch, Transfer.state, Transfer.priv]
    rw [hput, putMemAddr_state (by omega)]
    exact .memory l i h hm (by omega)
  | zero =>
    obtain ⟨n, hn⟩ := Nat.exists_eq_succ_of_ne_zero t.pos.ne'
    cases hr : t.read with
    | true =>
      have hturn : irqHandler .masterDataTranAck
          (t.state slave false 0 0 ⟨d, true, true, false, .transmit, l⟩) =
          t.state slave true 0 0 ⟨d, true, true, true, .transmit, l⟩ := by
        simp [irqHandler, irqSwitch, Transfer.state, Transfer.priv, hm, hr, State.sendStart,
          State.setRestartBit]
      rw [hturn, Transfer.turn, hr, hm]
      exact .turn l d h hr
    | false =>
      have hput : irqHandler .masterDataTranAck
          (t.state slave false 0 0 ⟨d, true, true, false, .transmit, l⟩) =
          (t.state slave false 0 0 ⟨d, true, true, false, .transmit, l⟩).putBuf := by
        simp [irqHandler, irqSwitch, Transfer.state, Transfer.priv, hr, t.pos]
      rw [hput, putBuf_state hr, Transfer.turn, hr, Transfer.data, hn]
      exact .write l 0 n hr (by omega)

theorem addressing_bit7 (t : Transfer .bit7) :
    t.addressing = [.send (t.address.first t.plainRead)] := by
  obtain ⟨address, memory, read, buf, size, pos⟩ := t
  cases address with
  | bit7 a h => rfl

theorem addressing_bit10 (t : Transfer .bit10) (restart : Bool) (cnt k : Nat) :
    t.addressing =
      [.send (t.address.first false), .send (t.priv restart cnt k).get10BitAddr2] := by
  obtain ⟨address, memory, read, buf, size, pos⟩ := t
  cases address with
  | bit10 a =>
    rw [get10BitAddr2_eq (a := a) rfl]
    rfl

theorem dataFrom_length : (t.dataFrom k n).length = n := by
  induction n generalizing k with
  | zero => rfl
  | succ n ih => rw [Transfer.dataFrom, List.length_cons, ih]

theorem size_le_body : t.size ≤ t.body.length := by
  rw [Transfer.body, List.length_append, Transfer.data, dataFrom_length]
  exact Nat.le_add_left ..

/-! ## What the controller reports -/

theorem report_refused_address (hbit : d[0] = false) (hack : slave.acks l.sent = false) :
    (Controller.mk d true ackEn false .address l).report slave =
      some (.addrWrTranNack, ⟨d, true, ackEn, false, .held, l.send slave d⟩) := by
  by_cases hp : d.extractLsb' 3 5 = tenBitHead <;> simp [Controller.report, hbit, hack, hp]

theorem report_write (hbit : d[0] = false) (hack : slave.acks l.sent = true) :
    (Controller.mk d true ackEn false .address l).report slave =
      some (.addrWrTranAck, ⟨d, true, ackEn, false,
        if d.extractLsb' 3 5 = tenBitHead then .secondAddress else .transmit,
        l.send slave d⟩) := by
  by_cases hp : d.extractLsb' 3 5 = tenBitHead <;> simp [Controller.report, hbit, hack, hp]

theorem report_refused_read (hbit : d[0] = true) (hack : slave.acks l.sent = false) :
    (Controller.mk d true ackEn false .address l).report slave =
      some (.addrRdTranNack, ⟨d, true, ackEn, false, .held, l.send slave d⟩) := by
  simp [Controller.report, hbit, hack]

theorem report_read (hbit : d[0] = true) (hack : slave.acks l.sent = true) :
    (Controller.mk d true ackEn false .address l).report slave =
      some (.addrRdTranAck, ⟨d, true, ackEn, false, .receive, l.send slave d⟩) := by
  simp [Controller.report, hbit, hack]

theorem report_second_refused (hack : slave.acks l.sent = false) :
    (Controller.mk d true ackEn false .secondAddress l).report slave =
      some (.secAddrWrNack, ⟨d, true, ackEn, false, .held, l.send slave d⟩) := by
  simp [Controller.report, hack]

theorem report_second (hack : slave.acks l.sent = true) :
    (Controller.mk d true ackEn false .secondAddress l).report slave =
      some (.secAddrWrAck, ⟨d, true, ackEn, false, .transmit, l.send slave d⟩) := by
  simp [Controller.report, hack]

theorem report_data_refused (hack : slave.acks l.sent = false) :
    (Controller.mk d true ackEn false .transmit l).report slave =
      some (.masterDataTranNack, ⟨d, true, ackEn, false, .held, l.send slave d⟩) := by
  simp [Controller.report, hack]

theorem report_data (hack : slave.acks l.sent = true) :
    (Controller.mk d true ackEn false .transmit l).report slave =
      some (.masterDataTranAck, ⟨d, true, ackEn, false, .transmit, l.send slave d⟩) := by
  simp [Controller.report, hack]

/-! ## One interrupt -/

/-- The item has been played: the driver is before the next, or it has sent the stop. -/
def Stepped (t : Transfer mode) (slave : Slave) (l : Log) (x : Item) (xs : List Item) (s : State) :
    Prop :=
  if x.goesOn slave l = true ∧ xs ≠ [] then Ready t slave xs (l.play slave x) s
  else Done t slave xs.length (l.play slave x) s

theorem stepped_go (hgo : x.goesOn slave l = true) (hne : xs ≠ [])
    (h : Ready t slave xs (l.play slave x) s) : Stepped t slave l x xs s := by
  rw [Stepped, if_pos ⟨hgo, hne⟩]
  exact h

/-- A byte before the data that the slave does not acknowledge. -/
theorem stepped_refused (hack : slave.acks l.sent = false) (hlen : t.size ≤ xs.length)
    (hstart : c.start = false) (hlog : c.log = l.send slave d) :
    Stepped t slave l (.send d) xs (t.state slave restart cnt 0 c).sendStop.semaphoreRelease := by
  have hstop : ¬((Item.send d).goesOn slave l = true ∧ xs ≠ []) := fun h =>
    Bool.false_ne_true (hack.symm.trans h.1)
  rw [Stepped, if_neg hstop]
  exact done_state (by omega) hstart hlog

theorem body_ne_nil : t.body ≠ [] :=
  List.ne_nil_of_length_pos (Nat.lt_of_lt_of_le t.pos size_le_body)

theorem data_ne_nil : t.data ≠ [] := by
  rw [Transfer.data]
  exact List.ne_nil_of_length_pos (by rw [dataFrom_length]; exact t.pos)

theorem serve_start :
    (t.state slave restart cnt k ⟨d, true, ackEn, true, .idle, l⟩).serve slave =
      t.state slave restart cnt k
        ⟨t.address.first t.plainRead, true, ackEn, false, .address, l.mark .start⟩ := by
  rw [serve_state rfl]
  exact irq_start

theorem stepped_start (h : l.received = 0)
    (hok : ¬(mode = .bit10 ∧ t.memory = none ∧ t.read = true)) :
    Stepped t slave l .start (t.addressing ++ t.body)
      ((t.state slave false t.memorySize 0 ⟨d, true, true, true, .idle, l⟩).serve slave) := by
  rw [serve_start]
  apply stepped_go rfl (by simp [body_ne_nil])
  cases hr : t.plainRead with
  | false => exact .first _ h hr
  | true =>
    have hread : t.read = true := by simp_all [Transfer.plainRead]
    have hnone : t.memory = none := by simp_all [Transfer.plainRead]
    cases mode with
    | bit10 => exact absurd ⟨rfl, hnone, hread⟩ hok
    | bit7 =>
      have hsize : t.memorySize = 0 := memorySize_none (by rw [hnone]; rfl)
      have hitems : t.addressing ++ t.body = .send (t.address.first true) :: t.data := by
        rw [addressing_bit7, hr, Transfer.body, hsize, Transfer.turn, hnone]
        simp [memoryItems]
      rw [hitems, hsize]
      exact .again _ false h hread

theorem stepped_first (h : l.received = 0) (hr : t.plainRead = false)
    (hitems : t.addressing ++ t.body = x :: xs) :
    Stepped t slave l x xs
      ((t.state slave false t.memorySize 0
        ⟨t.address.first false, true, true, false, .address, l⟩).serve slave) := by
  have hbit := first_bit t.address false
  have hten := first_tenBit t.address false
  cases mode with
  | bit7 =>
    rw [addressing_bit7, hr, List.singleton_append, List.cons.injEq] at hitems
    obtain ⟨rfl, rfl⟩ := hitems
    have hseven : (t.address.first false).extractLsb' 3 5 ≠ tenBitHead :=
      fun h' => absurd (hten.mp h') (by decide)
    cases hack : slave.acks l.sent with
    | false =>
      rw [serve_state (report_refused_address hbit hack)]
      exact stepped_refused hack size_le_body rfl rfl
    | true =>
      rw [serve_state (report_write hbit hack), if_neg hseven, irq_addrWr_bit7]
      exact stepped_go hack body_ne_nil (ready_body hr h)
  | bit10 =>
    rw [addressing_bit10 t false t.memorySize 0, List.cons_append, List.cons.injEq] at hitems
    obtain ⟨rfl, rfl⟩ := hitems
    cases hack : slave.acks l.sent with
    | false =>
      rw [serve_state (report_refused_address hbit hack)]
      exact stepped_refused hack (Nat.le_succ_of_le size_le_body) rfl rfl
    | true =>
      rw [serve_state (report_write hbit hack), if_pos (hten.mpr rfl), irq_addrWr_bit10]
      exact stepped_go hack (by simp) (.second _ _ h hr rfl)

theorem stepped_second (h : l.received = 0) (hr : t.plainRead = false) :
    Stepped t slave l (.send d) t.body
      ((t.state slave false t.memorySize 0
        ⟨d, true, true, false, .secondAddress, l⟩).serve slave) := by
  cases hack : slave.acks l.sent with
  | false =>
    rw [serve_state (report_second_refused hack)]
    exact stepped_refused hack size_le_body rfl rfl
  | true =>
    rw [serve_state (report_second hack), irq_secAddrWr]
    exact stepped_go hack body_ne_nil (ready_body hr h)

theorem stepped_memory {i : Nat} (h : l.received = 0) (hm : t.memory.isSome = true) (hi : i < 4) :
    Stepped t slave l (.send (t.memoryAddr.extractLsb' (8 * i) 8))
      (memoryItems t.memoryAddr i ++ t.turn ++ t.data)
      ((t.state slave false i 0
        ⟨t.memoryAddr.extractLsb' (8 * i) 8, true, true, false, .transmit, l⟩).serve slave) := by
  have hlen : t.size ≤ (memoryItems t.memoryAddr i ++ t.turn ++ t.data).length := by
    rw [List.length_append, Transfer.data, dataFrom_length]
    exact Nat.le_add_left ..
  cases hack : slave.acks l.sent with
  | false =>
    rw [serve_state (report_data_refused hack)]
    exact stepped_refused hack hlen rfl rfl
  | true =>
    rw [serve_state (report_data hack)]
    exact stepped_go hack (by simp [data_ne_nil]) (ready_memory h hm (by omega))

theorem stepped_turn (h : l.received = 0) (hr : t.read = true) :
    Stepped t slave l .restart (.send (t.address.first true) :: t.data)
      ((t.state slave true 0 0 ⟨d, true, true, true, .transmit, l⟩).serve slave) := by
  rw [serve_state rfl, irq_restart]
  exact stepped_go rfl (by simp) (.again _ true h hr)

theorem stepped_again (h : l.received = 0) (hr : t.read = true) :
    Stepped t slave l (.send (t.address.first true)) t.data
      ((t.state slave restart 0 0
        ⟨t.address.first true, true, true, false, .address, l⟩).serve slave) := by
  have hbit := first_bit t.address true
  cases hack : slave.acks l.sent with
  | false =>
    rw [serve_state (report_refused_read hbit hack)]
    exact stepped_refused hack (by rw [Transfer.data, dataFrom_length]) rfl rfl
  | true =>
    obtain ⟨n, hn⟩ := Nat.exists_eq_succ_of_ne_zero t.pos.ne'
    have hmore : (true && decide (t.size ≠ 0 + 1)) = decide (n ≠ 0) := by simp [hn]
    rw [serve_state (report_read hbit hack), irq_addrRd]
    refine stepped_go hack data_ne_nil ?_
    dsimp only
    rw [hmore, Transfer.data, hn]
    exact .take _ _ restart 0 n h hr (by omega)

theorem stepped_write (hr : t.read = false) (hk : t.size = k + (n + 1)) :
    Stepped t slave l (.send (t.buf k)) (t.dataFrom (k + 1) n)
      ((t.state slave false 0 (k + 1) ⟨t.buf k, true, true, false, .transmit, l⟩).serve slave) := by
  cases hack : slave.acks l.sent with
  | false =>
    have hstop : ¬((Item.send (t.buf k)).goesOn slave l = true ∧ t.dataFrom (k + 1) n ≠ []) :=
      fun h => Bool.false_ne_true (hack.symm.trans h.1)
    rw [serve_state (report_data_refused hack), Stepped, if_neg hstop, dataFrom_length]
    exact done_state (by omega) rfl rfl
  | true =>
    rw [serve_state (report_data hack)]
    cases n with
    | zero =>
      rw [Stepped, if_neg fun h => h.2 rfl]
      have hend : irqHandler .masterDataTranAck
          (t.state slave false 0 (k + 1)
            ⟨t.buf k, true, true, false, .transmit, l.send slave (t.buf k)⟩) =
          (t.state slave false 0 (k + 1) ⟨t.buf k, true, true, false, .transmit,
            l.send slave (t.buf k)⟩).sendStop.semaphoreRelease := by
        simp [irqHandler, irqSwitch, Transfer.state, Transfer.priv, hr, hk]
      rw [hend]
      exact done_state (by rw [dataFrom_length]; omega) rfl rfl
    | succ n =>
      have hput : irqHandler .masterDataTranAck
          (t.state slave false 0 (k + 1)
            ⟨t.buf k, true, true, false, .transmit, l.send slave (t.buf k)⟩) =
          (t.state slave false 0 (k + 1)
            ⟨t.buf k, true, true, false, .transmit, l.send slave (t.buf k)⟩).putBuf := by
        have hleft : (0 : Int) < t.size - (k + 1 : Nat) := by omega
        simp only [irqHandler, irqSwitch, Transfer.state, Transfer.priv, hr, hleft]
        simp
      rw [hput, putBuf_state hr]
      exact stepped_go hack (by simp [Transfer.dataFrom]) (.write _ (k + 1) n hr (by omega))

theorem stepped_take (h : l.received = k) (hr : t.read = true) (hk : t.size = k + (n + 1)) :
    Stepped t slave l (.take (n ≠ 0)) (t.dataFrom (k + 1) n)
      ((t.state slave restart 0 k ⟨d, true, n ≠ 0, false, .receive, l⟩).serve slave) := by
  cases n with
  | zero =>
    rw [Stepped, if_neg fun h => h.2 rfl, serve_state rfl]
    have hend : irqHandler .masterDataRecvNack
        (t.state slave restart 0 k
          ⟨slave.data l.received, true, false, false, .held, l.receive slave false⟩) =
        (t.state slave restart 0 (k + 1)
          ⟨slave.data l.received, true, false, false, .held,
            l.receive slave false⟩).sendStop.semaphoreRelease := by
      rw [← getBuf_state hr (congrArg slave.data h)]
      rfl
    exact hend ▸ done_state (by rw [dataFrom_length]; omega) rfl rfl
  | succ n =>
    have hlog : l.receive slave (n + 1 ≠ 0) = l.receive slave true := by simp
    have hreport : (Controller.mk d true (n + 1 ≠ 0) false .receive l).report slave =
        some (.masterDataRecvAck,
          ⟨slave.data l.received, true, true, false, .receive, l.receive slave true⟩) := by
      simp [Controller.report]
    have hmore : (true && decide (t.size ≠ k + 1 + 1)) = decide (n ≠ 0) := by
      rw [hk, Bool.true_and]
      exact decide_eq_decide.mpr (by omega)
    rw [serve_state hreport, irq_dataRecv hr (congrArg slave.data h)]
    dsimp only
    rw [hmore]
    refine stepped_go rfl (by simp [Transfer.dataFrom]) ?_
    rw [Log.play, hlog]
    exact .take _ _ restart (k + 1) n (congrArg (· + 1) h) hr (by omega)

theorem Ready.stepped (hok : ¬(mode = .bit10 ∧ t.memory = none ∧ t.read = true))
    (h : Ready t slave (x :: xs) l s) : Stepped t slave l x xs (s.serve slave) := by
  generalize hitems : x :: xs = items at h
  cases h with
  | start _ d h =>
    obtain ⟨rfl, rfl⟩ := List.cons.inj hitems
    exact stepped_start h hok
  | first _ h hr => exact stepped_first h hr hitems.symm
  | second _ d h hr hmode =>
    obtain ⟨rfl, rfl⟩ := List.cons.inj hitems
    exact stepped_second h hr
  | memory _ i h hm hi =>
    obtain ⟨rfl, rfl⟩ := List.cons.inj hitems
    exact stepped_memory h hm hi
  | turn _ d h hr =>
    obtain ⟨rfl, rfl⟩ := List.cons.inj hitems
    exact stepped_turn h hr
  | again _ restart h hr =>
    obtain ⟨rfl, rfl⟩ := List.cons.inj hitems
    exact stepped_again h hr
  | write _ k n hr hk =>
    rw [Transfer.dataFrom, hr] at hitems
    obtain ⟨rfl, rfl⟩ := List.cons.inj hitems
    exact stepped_write hr hk
  | take _ d restart k n h hr hk =>
    rw [Transfer.dataFrom, hr] at hitems
    obtain ⟨rfl, rfl⟩ := List.cons.inj hitems
    exact stepped_take h hr hk

/-! ## A transfer -/

variable {items : List Item} {irqs : Nat}

theorem Ready.sem (h : Ready t slave items l s) : s.priv.sem = false := by
  cases h <;> rfl

theorem Ready.ne_nil (h : Ready t slave items l s) : items ≠ [] := by
  cases h <;> simp [body_ne_nil, data_ne_nil, Transfer.dataFrom]

theorem Ready.log (h : Ready t slave items l s) : s.i2c.log = l := by
  cases h <;> rfl

theorem play_length (l : Log) (slave : Slave) (x : Item) :
    (l.play slave x).trace.length = l.trace.length + 1 := by
  cases x <;> simp [Log.play, Log.mark, Log.send, Log.receive]

theorem play_grows : l.trace <+: (l.play slave x).trace := by
  cases x <;> exact List.prefix_append ..

theorem follow_grows (l : Log) (slave : Slave) (items : List Item) :
    l.trace <+: (l.follow slave items).trace := by
  induction items generalizing l with
  | nil => exact List.prefix_refl _
  | cons x xs ih =>
    rw [Log.follow]
    split
    · exact play_grows.trans (ih _)
    · exact play_grows

theorem follow_length_le (l : Log) (slave : Slave) (items : List Item) :
    (l.follow slave items).trace.length ≤ l.trace.length + items.length := by
  induction items generalizing l with
  | nil => exact Nat.le_refl _
  | cons x xs ih =>
    have hplay := play_length l slave x
    rw [Log.follow, List.length_cons]
    split
    · exact Nat.le_trans (ih _) (by omega)
    · omega

theorem semaphoreWait_taken (h : s.priv.sem = true) :
    semaphoreWait slave n s = { s with priv := { s.priv with sem := false } } := by
  cases n <;> rw [semaphoreWait, if_pos h]

theorem semaphoreWait_serve (h : s.priv.sem = false) :
    semaphoreWait slave (n + 1) s = semaphoreWait slave n (s.serve slave) := by
  rw [semaphoreWait, h]
  rfl

/-- With interrupts enough the wait gets the semaphore, when the items are played or one of them has
been refused. -/
theorem Ready.wait (hok : ¬(mode = .bit10 ∧ t.memory = none ∧ t.read = true))
    (h : Ready t slave items l s)
    (hn : (l.follow slave items).trace.length ≤ l.trace.length + n) :
    ∃ left s', Done t slave left (l.follow slave items) s' ∧
      left + (l.follow slave items).trace.length = items.length + l.trace.length ∧
      semaphoreWait slave n s = { s' with priv := { s'.priv with sem := false } } := by
  induction items generalizing l s n with
  | nil => exact absurd rfl h.ne_nil
  | cons x xs ih =>
    have hplay := play_length l slave x
    have hstepped := h.stepped hok
    rw [Stepped] at hstepped
    split at hstepped
    · rename_i hgo
      rw [Log.follow, if_pos hgo.1] at hn ⊢
      have hge := (follow_grows (l.play slave x) slave xs).length_le
      obtain ⟨n, rfl⟩ : ∃ m, n = m + 1 := ⟨n - 1, by omega⟩
      obtain ⟨left, s', hdone, hleft, hwait⟩ := ih hstepped (n := n) (by omega)
      refine ⟨left, s', hdone, ?_, (semaphoreWait_serve h.sem).trans hwait⟩
      rw [hleft, List.length_cons]
      omega
    · rename_i hstop
      have hfollow : l.follow slave (x :: xs) = l.play slave x := by
        rw [Log.follow]
        split
        · rename_i hgo
          have hnil : xs = [] := Decidable.not_not.mp fun hne => hstop ⟨hgo, hne⟩
          rw [hnil, Log.follow]
        · rfl
      rw [hfollow] at hn ⊢
      obtain ⟨n, rfl⟩ : ∃ m, n = m + 1 := ⟨n - 1, by omega⟩
      refine ⟨xs.length, s.serve slave, hstepped, ?_,
        (semaphoreWait_serve h.sem).trans (semaphoreWait_taken hstepped.sem)⟩
      rw [List.length_cons]
      omega

/-- A wait that times out leaves the transfer where it is. -/
theorem Ready.wait_short (hok : ¬(mode = .bit10 ∧ t.memory = none ∧ t.read = true))
    (h : Ready t slave items l s)
    (hn : l.trace.length + n < (l.follow slave items).trace.length) :
    (semaphoreWait slave n s).i2c.log.trace.length = l.trace.length + n := by
  induction n generalizing items l s with
  | zero =>
    rw [semaphoreWait, h.sem, ← h.log]
    rfl
  | succ n ih =>
    cases items with
    | nil => exact absurd rfl h.ne_nil
    | cons x xs =>
      have hplay := play_length l slave x
      have hstepped := h.stepped hok
      rw [semaphoreWait_serve h.sem]
      rw [Log.follow] at hn
      split at hn
      · rename_i hgo
        have hne : xs ≠ [] := by
          rintro rfl
          rw [Log.follow] at hn
          omega
        rw [Stepped, if_pos ⟨hgo, hne⟩] at hstepped
        rw [ih hstepped (by omega)]
        omega
      · omega

/-! ## What is carried -/

theorem play_sent : (l.play slave x).sent = l.sent + (if x.isSend then 1 else 0) := by
  cases x <;> rfl

theorem goesOn_iff : x.goesOn slave l = true ↔ (x.isSend = true → slave.acks l.sent = true) := by
  cases x <;> simp [Item.goesOn, Item.isSend]

theorem foldl_play_length :
    (xs.foldl (Log.play · slave) l).trace.length = l.trace.length + xs.length := by
  induction xs generalizing l with
  | nil => rfl
  | cons x xs ih => rw [List.foldl_cons, ih, play_length, List.length_cons, Nat.add_right_comm,
      Nat.add_assoc]

theorem foldl_play_sent :
    (xs.foldl (Log.play · slave) l).sent = l.sent + xs.countP Item.isSend := by
  induction xs generalizing l with
  | nil => rfl
  | cons x xs ih => rw [List.foldl_cons, ih, play_sent, List.countP_cons, Nat.add_right_comm,
      Nat.add_assoc]

theorem follow_acked (h : ∀ i < xs.countP Item.isSend, slave.acks (l.sent + i) = true) :
    l.follow slave (xs ++ items) = (xs.foldl (Log.play · slave) l).follow slave items := by
  induction xs generalizing l with
  | nil => rfl
  | cons x xs ih =>
    have hgo : x.goesOn slave l = true := by
      refine goesOn_iff.mpr fun hsend => ?_
      simpa using h 0 (by simp [hsend])
    rw [List.cons_append, Log.follow, if_pos hgo, List.foldl_cons]
    refine ih fun i hi => ?_
    rw [play_sent, Nat.add_assoc, Nat.add_comm _ i]
    refine h _ ?_
    rw [List.countP_cons]
    omega

theorem follow_refused (items : List Item)
    (h : ∃ i < xs.countP Item.isSend, slave.acks (l.sent + i) = false) :
    l.follow slave (xs ++ items) = l.follow slave xs ∧
      (l.follow slave xs).trace.length ≤ l.trace.length + xs.length := by
  induction xs generalizing l with
  | nil =>
    obtain ⟨i, hi, -⟩ := h
    exact absurd hi (Nat.not_lt_zero i)
  | cons x xs ih =>
    rw [List.cons_append, Log.follow, Log.follow, List.length_cons]
    split
    · rename_i hgo
      obtain ⟨i, hi, hack⟩ := h
      have hsome : ∃ j < xs.countP Item.isSend, slave.acks ((l.play slave x).sent + j) = false := by
        rw [List.countP_cons] at hi
        rw [play_sent]
        cases hsend : x.isSend with
        | false => exact ⟨i, by simpa [hsend] using hi, by simpa [hsend] using hack⟩
        | true =>
          have hzero : i ≠ 0 := by
            rintro rfl
            exact Bool.false_ne_true (hack.symm.trans (goesOn_iff.mp hgo hsend))
          refine ⟨i - 1, by simp only [hsend, if_true] at hi; omega, ?_⟩
          rw [if_pos rfl, Nat.add_assoc, Nat.add_sub_of_le (by omega)]
          exact hack
      obtain ⟨hfollow, hlen⟩ := ih hsome
      refine ⟨hfollow, ?_⟩
      rw [play_length] at hlen
      omega
    · exact ⟨rfl, by rw [play_length]; omega⟩

/-- A read stores every byte that it takes. -/
theorem follow_take (slave : Slave) (l : Log) (hr : t.read = true) :
    ∃ es : List Event, (l.follow slave (t.dataFrom k n)).trace = l.trace ++ es ∧
      es.countP Event.carried = es.length := by
  induction n generalizing k l with
  | zero => exact ⟨[], by simp [Transfer.dataFrom, Log.follow], rfl⟩
  | succ n ih =>
    obtain ⟨es, hes, hcount⟩ := ih (k := k + 1) (l.receive slave (n ≠ 0))
    refine ⟨.received (slave.data l.received) (n ≠ 0) :: es, ?_, ?_⟩
    · have hgo : (Item.take (n ≠ 0)).goesOn slave l = true := rfl
      rw [Transfer.dataFrom, hr, if_pos rfl, Log.follow, if_pos hgo, Log.play, hes]
      simp [Log.receive]
    · rw [List.countP_cons, hcount]
      rfl

/-- The last byte that a write puts is carried if it is acknowledged. -/
theorem follow_write (slave : Slave) (l : Log) (hr : t.read = false) :
    ∃ es : List Event, (l.follow slave (t.dataFrom k n)).trace = l.trace ++ es ∧
      (es.countP Event.carried = es.length ↔ ∀ i < n, slave.acks (l.sent + i) = true) := by
  induction n generalizing k l with
  | zero => exact ⟨[], by simp [Transfer.dataFrom, Log.follow], by simp⟩
  | succ n ih =>
    rw [Transfer.dataFrom, hr, Log.follow]
    cases hack : slave.acks l.sent with
    | false =>
      refine ⟨[.sent (t.buf k) false], ?_, ?_⟩
      · simp [Item.goesOn, hack, Log.play, Log.send]
      · refine ⟨fun h => absurd h (by simp [Event.carried]), fun h => ?_⟩
        exact absurd (hack.symm.trans (h 0 (by omega))) Bool.false_ne_true
    | true =>
      obtain ⟨es, hes, hcount⟩ := ih (k := k + 1) (l.send slave (t.buf k))
      refine ⟨.sent (t.buf k) true :: es, ?_, ?_⟩
      · simp only [Item.goesOn, hack, Log.play, if_true, Bool.false_eq_true, if_false, hes]
        simp [Log.send, hack]
      · rw [List.countP_cons, List.length_cons, Nat.forall_lt_succ_left]
        simp only [Event.carried, if_true, Nat.add_right_cancel_iff, hcount, Nat.add_zero, hack,
          true_and]
        exact forall₂_congr fun i _ => by rw [Log.send, Nat.add_assoc, Nat.add_comm 1 i]

/-! ## Calls -/

/-- Between two transfers. -/
structure Idle (mode : AddrMode) (s : State) : Prop where
  bit7 : s.priv.bit7 = decide (mode = .bit7)
  sem : s.priv.sem = false
  phase : s.i2c.phase = .idle

theorem idle_init : Idle mode (init mode) where
  bit7 := rfl
  sem := rfl
  phase := rfl

variable {call : Call mode}

def Call.begin (call : Call mode) (d : Byte) : State :=
  call.transfer.state call.slave false call.transfer.memorySize 0
    ⟨d, true, true, true, .idle, .empty⟩

/-- The state behind the wait. -/
def Call.waited (call : Call mode) (d : Byte) : State :=
  semaphoreWait call.slave call.irqs (call.begin d)

def State.release (s : State) : State :=
  { s with
    priv := { s.priv with devAddr := 0, memAddr := 0, memAddrSizeCnt := 0, buf := 0, size := 0 }
    i2c := { s.i2c with irqEn := false, ackEn := false } }

theorem stored_zero : t.stored slave 0 = t.buf := by
  funext i
  simp [Transfer.stored]

theorem run_eq (h : Idle mode s) :
    call.run s = (call.transfer.size - (call.waited s.i2c.data).priv.size,
      (call.waited s.i2c.data).release) := by
  obtain ⟨⟨address, memory, read, buf, size, pos⟩, slave, irqs⟩ := call
  obtain ⟨⟨bit7, readMode, memMode, restart, cnt, devAddr, memAddr, off, left, sem⟩,
    ⟨data, irqEn, ackEn, start, phase, log⟩, mem, touched⟩ := s
  obtain rfl : bit7 = decide (mode = .bit7) := h.bit7
  obtain rfl : sem = false := h.sem
  obtain rfl : phase = .idle := h.phase
  have hpos : size ≠ 0 := pos.ne'
  cases memory <;> cases read <;>
    simp [Call.run, masterTransmitIt, masterReceiveIt, masterTransmitMemIt, masterReceiveMemIt,
      masterCommon, hpos, Call.waited, Call.begin, State.release, Transfer.state, Transfer.priv,
      stored_zero, State.setModes, Transfer.memorySize, Transfer.memoryAddr, MemAddrSize.count]

theorem script_eq : t.script = .start :: (t.addressing ++ t.body) := by
  simp [Transfer.script, Transfer.header, Transfer.body, Transfer.data]

theorem trace_length_le (t : Transfer mode) (slave : Slave) :
    (t.trace slave).length ≤ t.header.length + t.size := by
  have hle := follow_length_le .empty slave t.script
  rw [Transfer.script, List.length_append, dataFrom_length] at hle
  rw [Transfer.trace, Transfer.script]
  simpa [Log.empty] using hle

/-- All events behind the address are carried bytes unless a write ends with a refused one. -/
theorem transferred_iff :
    t.transferred slave = (t.trace slave).length - t.header.length ↔
      (t.read = false → (∃ i < t.addressBytes, slave.acks i = false) ∨
        ∀ i < t.addressBytes + t.size, slave.acks i = true) := by
  by_cases hrefused : ∃ i < t.addressBytes, slave.acks i = false
  · refine iff_of_true ?_ fun _ => .inl hrefused
    have hrefused' :
        ∃ i < t.header.countP Item.isSend, slave.acks (Log.empty.sent + i) = false := by
      simpa [Log.empty, Transfer.addressBytes] using hrefused
    obtain ⟨hfollow, hlen⟩ := follow_refused (t.dataFrom 0 t.size) hrefused'
    have hshort : (t.trace slave).length ≤ t.header.length := by
      rw [Transfer.trace, Transfer.script, hfollow]
      simpa [Log.empty] using hlen
    rw [Transfer.transferred, List.drop_eq_nil_of_le hshort]
    exact (Nat.sub_eq_zero_of_le hshort).symm
  · have hacked : ∀ i < t.addressBytes, slave.acks i = true := fun i hi =>
      Bool.of_not_eq_false fun h => hrefused ⟨i, hi, h⟩
    have hfollow : Log.empty.follow slave t.script =
        (t.header.foldl (Log.play · slave) .empty).follow slave (t.dataFrom 0 t.size) :=
      follow_acked fun i hi => (congrArg slave.acks (Nat.zero_add i)).trans (hacked i hi)
    have hlen : (t.header.foldl (Log.play · slave) Log.empty).trace.length = t.header.length := by
      rw [foldl_play_length]
      exact Nat.zero_add _
    have hsent : (t.header.foldl (Log.play · slave) Log.empty).sent = t.addressBytes := by
      rw [foldl_play_sent]
      exact Nat.zero_add _
    have hdrop {es : List Event} (h : ((t.header.foldl (Log.play · slave) .empty).follow slave
        (t.dataFrom 0 t.size)).trace =
          (t.header.foldl (Log.play · slave) Log.empty).trace ++ es) :
        t.transferred slave = es.countP Event.carried ∧
          (t.trace slave).length - t.header.length = es.length := by
      rw [Transfer.transferred, Transfer.trace, hfollow, h, List.drop_left' hlen,
        List.length_append, hlen, Nat.add_sub_cancel_left]
      exact ⟨rfl, rfl⟩
    cases hr : t.read with
    | true =>
      obtain ⟨es, hes, hcount⟩ := follow_take (k := 0) (n := t.size) slave
        (t.header.foldl (Log.play · slave) .empty) hr
      rw [(hdrop hes).1, (hdrop hes).2]
      exact iff_of_true hcount fun h => absurd h.symm Bool.false_ne_true
    | false =>
      obtain ⟨es, hes, hcount⟩ := follow_write (k := 0) (n := t.size) slave
        (t.header.foldl (Log.play · slave) .empty) hr
      rw [(hdrop hes).1, (hdrop hes).2, hcount, hsent]
      refine ⟨fun h _ => .inr fun i hi => ?_, fun h i hi => ?_⟩
      · obtain hlt | hge := Nat.lt_or_ge i t.addressBytes
        · exact hacked i hlt
        · rw [← Nat.add_sub_of_le hge]
          exact h _ (by omega)
      · exact ((h rfl).resolve_left hrefused) _ (by omega)

theorem ready_begin (call : Call mode) (d : Byte) :
    Ready call.transfer call.slave call.transfer.script .empty (call.begin d) := by
  rw [script_eq]
  exact .start .empty d rfl

/-- What a transfer does whose wait gets the semaphore. -/
theorem waited_run (h : Idle mode s)
    (hok : ¬(mode = .bit10 ∧ call.transfer.memory = none ∧ call.transfer.read = true))
    (hwait : (call.transfer.trace call.slave).length ≤ call.irqs) :
    ∃ k, k = (call.transfer.trace call.slave).length - call.transfer.header.length ∧
      k ≤ call.transfer.size ∧ (call.run s).1 = k ∧
      (call.run s).2.i2c.log.trace = call.transfer.trace call.slave ++ [.stop] ∧
      (call.run s).2.touched = List.range k ∧
      (call.run s).2.mem = call.transfer.stored call.slave k ∧ Idle mode (call.run s).2 := by
  obtain ⟨left, s', hdone, hleft, hs'⟩ := (ready_begin call s.i2c.data).wait hok
    (n := call.irqs) (hwait.trans (Nat.le_add_left ..))
  have hrun : (call.waited s.i2c.data) = { s' with priv := { s'.priv with sem := false } } := hs'
  have hlen := trace_length_le call.transfer call.slave
  have hk : call.transfer.size - left =
      (call.transfer.trace call.slave).length - call.transfer.header.length := by
    rw [Transfer.script, List.length_append, dataFrom_length] at hleft
    have hleft' : left + (call.transfer.trace call.slave).length =
        call.transfer.header.length + call.transfer.size := hleft
    omega
  rw [run_eq h, hrun]
  refine ⟨call.transfer.size - left, hk, Nat.sub_le .., ?_, ?_, hdone.touched, hdone.mem, ?_⟩
  · dsimp only
    rw [hdone.size]
    omega
  · exact congrArg Log.trace hdone.log
  · exact ⟨hdone.bit7, rfl, hdone.phase⟩

theorem meets_of_good (h : Idle mode s) (hgood : call.Good) :
    Meets s call ∧ Idle mode (next s call) := by
  obtain ⟨k, hk, hle, hret, hbus, htouched, hmem, hidle⟩ :=
    waited_run h hgood.addressed hgood.waited
  have hcount : call.transfer.transferred call.slave = k :=
    (transferred_iff.mpr hgood.acked).trans hk.symm
  refine ⟨⟨hbus, fun i hi => ?_, ?_, ?_⟩, hidle⟩
  · rw [htouched] at hi
    exact Nat.lt_of_lt_of_le (List.mem_range.mp hi) hle
  · rw [hcount, hmem]
  · rw [hcount, hret]

/-! ## Transfers that go wrong -/

theorem report_grows {status : IrqStatus} {c' : Controller}
    (h : c.report slave = some (status, c')) : c.log.trace <+: c'.log.trace := by
  simp only [Controller.report] at h
  split at h
  · exact absurd h.symm (Option.some_ne_none _)
  · split at h
    · split at h <;> cases h <;> exact List.prefix_append ..
    · cases hphase : c.phase <;> simp only [hphase] at h
      case idle | held => exact absurd h.symm (Option.some_ne_none _)
      case address => split_ifs at h <;> cases h <;> exact List.prefix_append ..
      all_goals cases h; exact List.prefix_append ..

theorem irqSwitch_log (status : IrqStatus) (s : State) :
    (irqSwitch status s).1.i2c.log = s.i2c.log := by
  cases status <;> simp only [irqSwitch] <;> (repeat' split) <;> rfl

theorem irqHandler_grows {status : IrqStatus} :
    s.i2c.log.trace <+: (irqHandler status s).i2c.log.trace := by
  have hlog := irqSwitch_log status s
  simp only [irqHandler]
  split
  · exact ⟨[.stop], congrArg (fun l : Log => l.trace ++ [.stop]) hlog.symm⟩
  · exact ⟨[], by rw [hlog, List.append_nil]⟩

theorem serve_grows : s.i2c.log.trace <+: (s.serve slave).i2c.log.trace := by
  rw [State.serve]
  split
  · exact List.prefix_refl _
  · rename_i status c' hreport
    exact (report_grows hreport).trans (irqHandler_grows (s := { s with i2c := c' }))

theorem semaphoreWait_grows :
    s.i2c.log.trace <+: (semaphoreWait slave n s).i2c.log.trace := by
  induction n generalizing s with
  | zero =>
    rw [semaphoreWait]
    split <;> exact List.prefix_refl _
  | succ n ih =>
    rw [semaphoreWait]
    split
    · exact List.prefix_refl _
    · exact serve_grows.trans ih

theorem serve_address (hbit : d[0] = true) :
    (l.send slave d).trace <+:
      ((t.state slave restart cnt k ⟨d, true, ackEn, false, .address, l⟩).serve
        slave).i2c.log.trace := by
  cases hack : slave.acks l.sent with
  | false =>
    rw [serve_state (report_refused_read hbit hack)]
    exact irqHandler_grows
      (s := t.state slave restart cnt k ⟨d, true, ackEn, false, .held, l.send slave d⟩)
  | true =>
    rw [serve_state (report_read hbit hack)]
    exact irqHandler_grows
      (s := t.state slave restart cnt k ⟨d, true, ackEn, false, .receive, l.send slave d⟩)

/-- A plain read begins with the read address, also where that is a 10-bit address. -/
theorem waited_plainRead {call : Call mode} (d : Byte) (hr : call.transfer.plainRead = true) :
    (call.waited d).i2c.log.trace.length ≤ 1 ∨
      ∃ ack es, (call.waited d).i2c.log.trace =
        .start :: .sent (call.transfer.address.first true) ack :: es := by
  obtain ⟨t, slave, irqs⟩ := call
  have hread : t.plainRead = true := hr
  match irqs with
  | 0 => exact .inl (Nat.zero_le _)
  | 1 =>
    refine .inl ?_
    rw [Call.waited, semaphoreWait_serve rfl, Call.begin, serve_start]
    exact Nat.le_refl _
  | n + 2 =>
    refine .inr ⟨slave.acks 0, ?_⟩
    rw [Call.waited, semaphoreWait_serve rfl, Call.begin, serve_start, hread,
      semaphoreWait_serve rfl]
    obtain ⟨es, hes⟩ := (serve_address (first_bit t.address true)).trans
      (semaphoreWait_grows (n := n))
    exact ⟨es, hes.symm⟩

theorem trace_bit10 (t : Transfer .bit10) (slave : Slave) :
    ∃ ack es, t.trace slave = .start :: .sent (t.address.first false) ack :: es := by
  have hsent : ((Log.empty.mark .start).send slave (t.address.first false)).trace <+:
      t.trace slave := by
    have hstart : Item.start.goesOn slave .empty = true := rfl
    rw [Transfer.trace, script_eq, addressing_bit10 t false 0 0, Log.follow, if_pos hstart,
      List.cons_append, Log.follow]
    split
    · exact follow_grows ..
    · exact List.prefix_refl _
  obtain ⟨es, hes⟩ := hsent
  exact ⟨slave.acks 0, es, hes.symm⟩

theorem good_of_meets (h : Idle mode s) (hmeets : Meets s call) : call.Good := by
  have hbus := hmeets.bus
  rw [run_eq h] at hbus
  have hok : ¬(mode = .bit10 ∧ call.transfer.memory = none ∧ call.transfer.read = true) := by
    rintro ⟨rfl, hnone, hr⟩
    obtain ⟨ack, es, htrace⟩ := trace_bit10 call.transfer call.slave
    obtain hshort | ⟨ack', es', hsent⟩ := waited_plainRead s.i2c.data
      (by simp [Transfer.plainRead, hnone, hr] : call.transfer.plainRead = true)
    · have hlen := congrArg List.length hbus
      rw [htrace] at hlen
      simp only [List.length_append, List.length_cons] at hlen
      have hlog : (call.waited s.i2c.data).release.i2c.log = (call.waited s.i2c.data).i2c.log := rfl
      rw [hlog] at hlen
      omega
    · have hbytes := hsent.symm.trans (hbus.trans (congrArg (· ++ [.stop]) htrace))
      simp only [List.cons_append, List.cons.injEq, Event.sent.injEq] at hbytes
      exact first_ne _ hbytes.2.1.1
  have hwait : (call.transfer.trace call.slave).length ≤ call.irqs := by
    by_contra hlt
    have hshort := (ready_begin call s.i2c.data).wait_short hok (n := call.irqs) (by
      rw [show (Log.empty.trace.length) = 0 from rfl, Nat.zero_add]
      exact Nat.lt_of_not_le hlt)
    have hlen : (call.waited s.i2c.data).i2c.log.trace.length =
        (call.transfer.trace call.slave).length + 1 :=
      (congrArg List.length hbus).trans (List.length_append ..)
    have hirqs : (call.waited s.i2c.data).i2c.log.trace.length = call.irqs :=
      hshort.trans (Nat.zero_add _)
    omega
  obtain ⟨k, hk, -, hret, -⟩ := waited_run h hok hwait
  refine ⟨hok, transferred_iff.mp ?_, hwait⟩
  rw [← hk]
  exact Int.ofNat.inj (hmeets.count.symm.trans hret)

/-! ## Runs of calls -/

/-- Every transfer of a run is as it should be exactly if each of them is good. -/
theorem transfers_iff (calls : List (Call mode)) :
    Along next Meets (init mode) calls ↔ ∀ call ∈ calls, call.Good := by
  have hcall (s : State) (call : Call mode) (h : Idle mode s) : Meets s call ↔ call.Good :=
    ⟨good_of_meets h, fun hgood => (meets_of_good h hgood).1⟩
  have hnext (s : State) (call : Call mode) (h : Idle mode s) (hgood : call.Good) :
      Idle mode (next s call) := (meets_of_good h hgood).2
  rw [along_iff (Q := fun _ call => call.Good) idle_init hcall hnext, along_forall]

/-- A write of one byte to `0x50`, whose data byte the slave does not acknowledge. -/
def refusedWrite : Call .bit7 where
  transfer := {
    address := .bit7 0x50 (by decide)
    memory := none
    read := false
    buf := fun _ => 0xAB
    size := 1
    pos := by decide }
  slave := { acks := fun i => i = 0, data := fun _ => 0 }
  irqs := 8

theorem refused_byte_counted : ¬Along next Meets (init .bit7) [refusedWrite] :=
  fun h => absurd h.1.count (by decide)

end

end I2c
end XR806

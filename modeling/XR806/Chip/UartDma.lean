import Mathlib.Data.List.Perm.Basic
import Mathlib.Logic.Function.Basic
import Mathlib.Algebra.Group.Nat.Defs

/-!
# XR806.Chip.UartDma

The DMA transfers of one UART that is initialised, has both DMA channels enabled and no receive
callback. A buffer in PSRAM is bounced: the DMA works on a block of the DMA heap. The driver
remembers the block in one record that both directions share, so a transfer that starts or stops
beside another one can take the other's block for its own. The function around a start and a stop
waits for a semaphore in between, which the end of the DMA releases whether anyone waits or not. If
a start never finds a block of the other direction in the record and a stop only finds its own, and
no wait finds a token of an earlier transfer, the blocks are freed once each, by the stop of their
transfer, and the bytes arrive (`bounce_buffers_kept`).
-/

namespace XR806
namespace UartDma

abbrev Byte := BitVec 8

/-- The start of an object: a caller's buffer or a block of the DMA heap. -/
inductive Ptr
  | null
  | caller (n : Nat)
  | block (n : Nat)
  deriving DecidableEq

inductive Dir
  | tx
  | rx
  deriving DecidableEq

def Dir.other : Dir → Dir
  | .tx => .rx
  | .rx => .tx

/-- `struct dmaHeap_priv`, of which there is one for a UART. -/
structure DmaHeapPriv where
  useingDmaBuf : Bool
  callerbufLen : Nat
  callerbuf : Ptr
  dmabuf : Ptr

/-- A DMA channel: where it works in the memory, the bytes left and the bytes moved since it was
started. -/
structure Channel where
  addr : Ptr
  byteCnt : Nat
  moved : List Byte
  running : Bool

/-- A transfer from its start to its stop: the caller's buffer and what it held at the start, the
block that the start has allocated, and the one that the function around start and stop has, if
there is one. That function waits, `forever` or for a time. -/
structure Flight where
  data : List Byte
  buf : Ptr
  block : Option Nat
  own : Option Nat
  wrapped : Bool
  forever : Bool

/-- The memory, the record, the channels, their end interrupts that are pending, and the semaphores
that these release. An access outside of an object, to a freed block or through a wrong pointer is a
fault. -/
structure Uart where
  mem : Ptr → List Byte
  next : Nat
  allocs : List Nat
  freed : List Nat
  fault : Bool
  priv : DmaHeapPriv
  chan : Dir → Channel
  pending : Dir → Bool
  sem : Dir → Bool
  flight : Dir → Option Flight

/-- The bytes a new block holds, or no block. -/
abbrev Room := Option (Nat → Byte)

def Uart.start : Uart where
  mem _ := []
  next := 0
  allocs := []
  freed := []
  fault := false
  priv := ⟨false, 0, .null, .null⟩
  chan _ := ⟨.null, 0, [], false⟩
  pending _ := false
  sem _ := false
  flight _ := none

/-! ## The memory -/

namespace Uart

def Live (u : Uart) (b : Nat) : Prop := b ∈ u.allocs ∧ b ∉ u.freed

instance (u : Uart) (b : Nat) : Decidable (u.Live b) := inferInstanceAs (Decidable (_ ∧ _))

def Valid (u : Uart) : Ptr → Prop
  | .null => True
  | .caller _ => True
  | .block b => u.Live b

instance (u : Uart) : (p : Ptr) → Decidable (u.Valid p)
  | .null => isTrue trivial
  | .caller _ => isTrue trivial
  | .block b => inferInstanceAs (Decidable (u.Live b))

/-- `n` bytes at `p` may be accessed. -/
def Reaches (u : Uart) (p : Ptr) (n : Int) : Prop :=
  0 ≤ n ∧ n ≤ (u.mem p).length ∧ u.Valid p

instance (u : Uart) (p : Ptr) (n : Int) : Decidable (u.Reaches p n) :=
  inferInstanceAs (Decidable (_ ∧ _ ∧ _))

/-- A caller's buffer. -/
def place (u : Uart) (data : List Byte) : Uart :=
  { u with mem := Function.update u.mem (.caller u.next) data, next := u.next + 1 }

/-- `dma_malloc`. -/
def dmaMalloc (u : Uart) (size : Nat) : Room → Option (Nat × Uart)
  | none => none
  | some garbage => some (u.next, { u with
      mem := Function.update u.mem (.block u.next) ((List.range size).map garbage)
      next := u.next + 1
      allocs := u.allocs ++ [u.next] })

/-- `dma_free`. -/
def dmaFree (u : Uart) : Ptr → Uart
  | .null => u
  | .caller _ => { u with fault := true }
  | .block b => if u.Live b then { u with freed := u.freed ++ [b] } else { u with fault := true }

/-- `HAL_Memcpy`. -/
def memcpy (u : Uart) (dst src : Ptr) (n : Int) : Uart :=
  if u.Reaches dst n ∧ u.Reaches src n then
    let bytes := (u.mem src).take n.toNat ++ (u.mem dst).drop n.toNat
    { u with mem := Function.update u.mem dst bytes }
  else { u with fault := true }

/-! ## The DMA -/

end Uart

/-- `DMA_DATA_MAX_LEN`. -/
def dataMaxLen : Nat := 131072

/-- `DMA_FLASHCSBUS_COEXIST`. -/
def flashSbusIscoexist : Bool := false

namespace Uart

/-- `HAL_DMA_Start`. Its result is not looked at. -/
def dmaStart (u : Uart) (d : Dir) (addr : Ptr) (size : Nat) : Uart :=
  if size > dataMaxLen ∨ size = 0 then u
  else { u with chan := Function.update u.chan d ⟨addr, size, [], true⟩ }

/-- `HAL_DMA_Stop`. An interrupt that is pending stays so. -/
def dmaStop (u : Uart) (d : Dir) : Uart :=
  { u with chan := Function.update u.chan d { u.chan d with running := false } }

/-- A running channel sends a byte of the memory, or puts `byte`, which was received, there. The last
one raises the interrupt. -/
def dmaMove (u : Uart) (d : Dir) (byte : Byte) : Uart :=
  let c := u.chan d
  if c.running ∧ 0 < c.byteCnt then
    if u.Reaches c.addr (c.moved.length + 1) then
      let pending := Function.update u.pending d (u.pending d || c.byteCnt = 1)
      match d with
      | .tx =>
        { u with
          pending
          chan := Function.update u.chan d { c with
            byteCnt := c.byteCnt - 1
            moved := c.moved ++ [(u.mem c.addr).getD c.moved.length 0] } }
      | .rx =>
        { u with
          pending
          mem := Function.update u.mem c.addr ((u.mem c.addr).set c.moved.length byte)
          chan := Function.update u.chan d { c with
            byteCnt := c.byteCnt - 1
            moved := c.moved ++ [byte] } }
    else { u with fault := true }
  else u

/-- The interrupt with `UART_DMAEndCallback`. The semaphore is binary. -/
def dmaEnd (u : Uart) (d : Dir) : Uart :=
  if u.pending d then
    { u with
      pending := Function.update u.pending d false
      sem := Function.update u.sem d true }
  else u

end Uart

/-! ## The driver -/

/-- `!HAL_DMA_FlashSbus_Iscoexist() && RANGEOF_PSRAM(buf, size)`. -/
def bounces (psram : Bool) : Bool := !flashSbusIscoexist && psram

/-- `HAL_UART_StartTransmit_DMA` and `HAL_UART_StartReceive_DMA`: what they return, and the block
they have allocated. -/
def startDma (d : Dir) (u : Uart) (buf : Ptr) (size : Nat) (psram : Bool) (room : Room) :
    Uart × Int × Option Nat :=
  if size = 0 then (u, -1, none)
  else
    let u := { u with priv := { u.priv with useingDmaBuf := bounces psram } }
    if bounces psram then
      match u.dmaMalloc size room with
      | none => (u, -1, none)
      | some (b, u) =>
        let u := match d with
          | .tx =>
            let u := u.memcpy (.block b) buf size
            { u with priv := { u.priv with dmabuf := .block b } }
          | .rx =>
            { u with priv := { u.priv with
                dmabuf := .block b
                callerbuf := buf
                -- a bit-field
                callerbufLen := size % 2 ^ 24 } }
        (u.dmaStart d (.block b) size, 0, some b)
    else (u.dmaStart d buf size, 0, none)

def startTransmitDma := startDma .tx

def startReceiveDma := startDma .rx

/-- `HAL_UART_StopTransmit_DMA` and `HAL_UART_StopReceive_DMA`, with the bytes left. -/
def stopDma (d : Dir) (u : Uart) : Uart × Int :=
  let u := u.dmaStop d
  let left := (u.chan d).byteCnt
  if u.priv.useingDmaBuf then
    match d with
    | .tx =>
      let u := u.dmaFree u.priv.dmabuf
      ({ u with priv := { u.priv with useingDmaBuf := false, dmabuf := .null } }, left)
    | .rx =>
      let u := u.memcpy u.priv.callerbuf u.priv.dmabuf (u.priv.callerbufLen - left)
      let u := u.dmaFree u.priv.dmabuf
      ({ u with priv := ⟨false, 0, .null, .null⟩ }, left)
  else (u, left)

def stopTransmitDma := stopDma .tx

def stopReceiveDma := stopDma .rx

/-- The end of `HAL_UART_Transmit_DMA` and `HAL_UART_Receive_DMA`. -/
def wrapperOut (d : Dir) (u : Uart) (buf : Ptr) (size : Nat) : Option Nat → Uart
  | none => u
  | some own =>
    match d with
    | .tx => u.dmaFree (.block own)
    | .rx => (u.memcpy buf (.block own) size).dmaFree (.block own)

/-- The transfer of one direction is in flight. -/
def Uart.fly (u : Uart) (d : Dir) (f : Flight) : Uart :=
  { u with flight := Function.update u.flight d (some f) }

/-- `HAL_UART_Transmit_DMA`, which waits forever, and `HAL_UART_Receive_DMA` up to the wait. A block is
not in PSRAM. -/
def wrapperStart (d : Dir) (u : Uart) (buf : Ptr) (data : List Byte) (psram : Bool) (room : Room)
    (forever : Bool) : Uart × Int :=
  let forever := d = .tx ∨ forever
  if bounces psram then
    match u.dmaMalloc data.length room with
    | none => (u, -1)
    | some (own, u) =>
      let u := match d with
        | .tx => u.memcpy (.block own) buf data.length
        | .rx => u
      let (u, ret, block) := startDma d u (.block own) data.length false none
      if ret ≠ 0 then (wrapperOut d u buf data.length (some own), -1)
      else (u.fly d ⟨data, buf, block, some own, true, forever⟩, 0)
  else
    let (u, ret, block) := startDma d u buf data.length psram none
    if ret ≠ 0 then (u, -1) else (u.fly d ⟨data, buf, block, none, true, forever⟩, 0)

/-- `HAL_SemaphoreWait` of the function around the transfer: the state behind it, or `none` while it goes
on. A token is taken; without one the wait ends with its time. -/
def wait (d : Dir) (u : Uart) (f : Flight) (timeout : Bool) : Option Uart :=
  if f.wrapped = false then some u
  else if u.sem d then some { u with sem := Function.update u.sem d false }
  else if timeout ∧ f.forever = false then some u
  else none

/-- The stop of a transfer in flight, in the function around it if there is one. -/
def land (d : Dir) (u : Uart) (f : Flight) : Uart × Int :=
  let (u, left) := stopDma d u
  let u := { u with flight := Function.update u.flight d none }
  if f.wrapped then (wrapperOut d u f.buf f.data.length f.own, f.data.length - left)
  else (u, left)

/-- What happens: a start with a buffer that holds `data`, the call of a function that also stops,
a byte that the DMA moves, its interrupt, and a stop, which in such a function comes behind the wait.
Nobody else takes the token, so that the two are one step. -/
inductive Op
  | start (d : Dir) (data : List Byte) (psram : Bool) (room : Room)
  | call (d : Dir) (data : List Byte) (psram : Bool) (room : Room) (forever : Bool)
  | move (d : Dir) (byte : Byte)
  | irq (d : Dir)
  | stop (d : Dir) (timeout : Bool)

def step (u : Uart) : Op → Uart × Int
  | .start d data psram room =>
    let (u', ret, block) := startDma d (u.place data) (.caller u.next) data.length psram room
    if ret ≠ 0 then (u', ret) else (u'.fly d ⟨data, .caller u.next, block, none, false, false⟩, ret)
  | .call d data psram room forever =>
    wrapperStart d (u.place data) (.caller u.next) data psram room forever
  | .move d byte => (u.dmaMove d byte, 0)
  | .irq d => (u.dmaEnd d, 0)
  | .stop d timeout =>
    match u.flight d with
    | none => (u, 0)
    | some f =>
      match wait d u f timeout with
      | none => (u, 0)
      | some u => land d u f

def run (u : Uart) (ops : List Op) : Uart := ops.foldl (fun u op => (step u op).1) u

/-- Two transfers of one direction do not overlap. -/
def Ordered (u : Uart) : Op → Prop
  | .start d _ _ _ => u.flight d = none
  | .call d _ _ _ _ => u.flight d = none
  | .stop d _ => u.flight d ≠ none
  | _ => True

/-- The other direction has no block in the record. -/
def Free (u : Uart) (d : Dir) : Prop := ∀ f, u.flight d.other = some f → f.block = none

/-- Nothing is left of the end of an earlier transfer. -/
def Untold (u : Uart) (d : Dir) : Prop := u.sem d = false ∧ u.pending d = false

/-- A start that gets to the record finds no block of the other direction there, and one that gets
to the DMA has a size for it. A call that is going to wait finds no token, nor an interrupt that
brings one. A stop that finds a block in the record finds its own. -/
def Apart (u : Uart) : Op → Prop
  | .start d data psram room => data ≠ [] →
    Free u d ∧ ((psram = true → room.isSome) → data.length ≤ dataMaxLen)
  | .call d data psram room _ => data ≠ [] → (psram = true → room.isSome) →
    Free u d ∧ data.length ≤ dataMaxLen ∧ Untold u d
  | .move _ _ => True
  | .irq _ => True
  | .stop d _ => ∀ f, u.flight d = some f → u.priv.useingDmaBuf = true → f.block.isSome

def AllApart (u : Uart) : List Op → Prop
  | [] => True
  | op :: ops => (Ordered u op ∧ Apart u op) ∧ AllApart (step u op).1 ops

/-- The blocks that a transfer in flight has. -/
def Flight.blocks (f : Flight) : List Nat := f.block.toList ++ f.own.toList

def Uart.held (u : Uart) (d : Dir) : List Nat := (u.flight d).elim [] Flight.blocks

/-! ## The invariant -/

/-- Where the DMA works for the transfer. -/
def Flight.at (f : Flight) : Ptr :=
  match f.block, f.own with
  | some b, _ => .block b
  | none, some own => .block own
  | none, none => f.buf

/-- The object is older than object `n`. -/
def Ptr.Old (n : Nat) : Ptr → Prop
  | .null => True
  | .caller k => k < n
  | .block k => k < n

/-- What holds for a transfer in flight. -/
structure Flies (u : Uart) (d : Dir) (f : Flight) : Prop where
  buf : ∃ n < u.next, f.buf = .caller n
  old : f.at.Old u.next
  left : (u.chan d).byteCnt + (u.chan d).moved.length = f.data.length
  addr : (u.chan d).addr = f.at
  room : (u.mem f.at).length = f.data.length
  buflen : (u.mem f.buf).length = f.data.length
  moved : (u.chan d).moved = (u.mem f.at).take (u.chan d).moved.length
  sends : d = .tx → u.mem f.at = f.data
  one : f.block = none ∨ f.own = none
  wrapped : f.own.isSome → f.wrapped = true
  ended : f.wrapped = true → u.sem d = true ∨ u.pending d = true → (u.chan d).byteCnt = 0
  forever : d = .tx → f.wrapped = true → f.forever = true
  priv : ∀ b, f.block = some b → u.priv.useingDmaBuf = true ∧ u.priv.dmabuf = .block b ∧
    (d = .rx → u.priv.callerbuf = f.buf ∧ u.priv.callerbufLen = f.data.length)

/-- Nothing went wrong, every block is freed once or held by a transfer in flight, and the
transfers do not share a buffer. -/
structure Inv (u : Uart) : Prop where
  fault : u.fault = false
  flies : ∀ d f, u.flight d = some f → Flies u d f
  idle : ∀ d, u.flight d = none → (u.chan d).running = false
  bufs : ∀ f g, u.flight .tx = some f → u.flight .rx = some g → f.buf ≠ g.buf
  held : (u.freed ++ (u.held .tx ++ u.held .rx)).Perm u.allocs
  nodup : u.allocs.Nodup
  lt : ∀ b ∈ u.allocs, b < u.next

section

variable {u v : Uart} {d : Dir} {f g : Flight} {b : Nat} {p : Ptr}

theorem Dir.other_ne (d : Dir) : d.other ≠ d := by
  cases d <;> decide

theorem Dir.eq_or_eq_other (d e : Dir) : e = d ∨ e = d.other := by
  cases d <;> cases e <;> decide

theorem held_of_some (hf : u.flight d = some f) : u.held d = f.blocks := by
  rw [Uart.held, hf]
  rfl

theorem held_of_none (hf : u.flight d = none) : u.held d = [] := by
  rw [Uart.held, hf]
  rfl

theorem held_congr (h : v.flight d = u.flight d) : v.held d = u.held d := by
  rw [Uart.held, Uart.held, h]

/-- The two directions in either order. -/
theorem held_comm (d : Dir) :
    (u.freed ++ (u.held .tx ++ u.held .rx)).Perm (u.freed ++ (u.held d ++ u.held d.other)) := by
  cases d with
  | tx => exact List.Perm.refl _
  | rx => exact List.Perm.append_left _ List.perm_append_comm

theorem Inv.perm (h : Inv u) (d : Dir) :
    (u.freed ++ (u.held d ++ u.held d.other)).Perm u.allocs :=
  (held_comm d).symm.trans h.held

/-- A block in flight is allocated and not freed. -/
theorem Inv.live (h : Inv u) (hf : u.flight d = some f) (hb : b ∈ f.blocks) : u.Live b := by
  have hperm := h.perm d
  rw [held_of_some hf] at hperm
  have hnodup := hperm.nodup_iff.mpr h.nodup
  have hmem : b ∈ f.blocks ++ u.held d.other := List.mem_append_left _ hb
  refine ⟨hperm.mem_iff.mp (List.mem_append_right _ hmem), fun hfreed => ?_⟩
  exact (List.nodup_append.mp hnodup).2.2 b hfreed b hmem rfl

/-- The two transfers do not share a block. -/
theorem Inv.blocks_ne (h : Inv u) (hf : u.flight d = some f) (hg : u.flight d.other = some g)
    (hb : b ∈ f.blocks) : b ∉ g.blocks := by
  have hperm := h.perm d
  rw [held_of_some hf, held_of_some hg] at hperm
  have hnodup := (List.nodup_append.mp (hperm.nodup_iff.mpr h.nodup)).2.1
  exact fun hb' => (List.nodup_append.mp hnodup).2.2 b hb b hb' rfl

theorem Inv.bufs_ne (h : Inv u) (hf : u.flight d = some f) (hg : u.flight d.other = some g) :
    f.buf ≠ g.buf := by
  cases d with
  | tx => exact h.bufs f g hf hg
  | rx => exact (h.bufs g f hg hf).symm

theorem mem_blocks_of_block (hb : f.block = some b) : b ∈ f.blocks := by
  rw [Flight.blocks, hb]
  exact List.mem_append_left _ List.mem_cons_self

theorem mem_blocks_of_own (hb : f.own = some b) : b ∈ f.blocks := by
  rw [Flight.blocks, hb]
  exact List.mem_append_right _ List.mem_cons_self

/-- Only one of the transfers has its block in the record. -/
theorem Inv.free_of_block (h : Inv u) (hf : u.flight d = some f) (hb : f.block = some b) :
    Free u d := by
  intro g hg
  cases hg' : g.block with
  | none => rfl
  | some b' =>
    have hsame := ((h.flies d f hf).priv b hb).2.1.symm.trans ((h.flies _ g hg).priv b' hg').2.1
    obtain rfl := Ptr.block.inj hsame
    exact absurd (mem_blocks_of_block hg') (h.blocks_ne hf hg (mem_blocks_of_block hb))

theorem at_cases (f : Flight) : f.at = f.buf ∧ f.blocks = [] ∨ ∃ b ∈ f.blocks, f.at = .block b := by
  unfold Flight.at
  cases hb : f.block with
  | some b => exact .inr ⟨b, mem_blocks_of_block hb, rfl⟩
  | none =>
    cases ho : f.own with
    | some own => exact .inr ⟨own, mem_blocks_of_own ho, rfl⟩
    | none => exact .inl ⟨rfl, by rw [Flight.blocks, hb, ho]; rfl⟩

/-- The memory of a transfer may be accessed. -/
theorem Inv.valid (h : Inv u) (hf : u.flight d = some f) : u.Valid f.at := by
  obtain ⟨n, -, hbuf⟩ := (h.flies d f hf).buf
  rcases at_cases f with ⟨hat, -⟩ | ⟨b, hb, hat⟩
  · rw [hat, hbuf]
    exact trivial
  · rw [hat]
    exact h.live hf hb

theorem Inv.valid_buf (h : Inv u) (hf : u.flight d = some f) : u.Valid f.buf := by
  obtain ⟨n, -, hbuf⟩ := (h.flies d f hf).buf
  rw [hbuf]
  exact trivial

/-- The other transfer works elsewhere. -/
theorem Inv.at_ne (h : Inv u) (hf : u.flight d = some f) (hg : u.flight d.other = some g) :
    f.at ≠ g.at ∧ f.at ≠ g.buf ∧ f.buf ≠ g.at := by
  obtain ⟨n, -, hn⟩ := (h.flies d f hf).buf
  obtain ⟨m, -, hm⟩ := (h.flies _ g hg).buf
  have hne := h.bufs_ne hf hg
  rcases at_cases f with ⟨hat, -⟩ | ⟨b, hb, hat⟩ <;>
    rcases at_cases g with ⟨hat', -⟩ | ⟨b', hb', hat'⟩ <;> rw [hat, hat']
  · exact ⟨hne, hne, hne⟩
  · rw [hn, hm] at *
    exact ⟨fun h => Ptr.noConfusion h, hne, fun h => Ptr.noConfusion h⟩
  · rw [hm] at *
    exact ⟨fun h => Ptr.noConfusion h, fun h => Ptr.noConfusion h, hne⟩
  · rw [hn, hm]
    refine ⟨fun h' => ?_, fun h => Ptr.noConfusion h, fun h => Ptr.noConfusion h⟩
    obtain rfl := Ptr.block.inj h'
    exact h.blocks_ne hf hg hb hb'

/-- A transfer does not notice what happens elsewhere. -/
theorem Flies.frame (h : Flies u d f) (hnext : u.next ≤ v.next) (hchan : v.chan d = u.chan d)
    (hsem : v.sem d = u.sem d) (hpending : v.pending d = u.pending d)
    (hat : v.mem f.at = u.mem f.at) (hbuf : v.mem f.buf = u.mem f.buf)
    (hpriv : f.block = none ∨ v.priv = u.priv) : Flies v d f where
  buf := by
    obtain ⟨n, hn, hbuf⟩ := h.buf
    exact ⟨n, Nat.lt_of_lt_of_le hn hnext, hbuf⟩
  old := by
    have hold := h.old
    unfold Ptr.Old at hold ⊢
    split
    · exact trivial
    all_goals
      rename_i heq
      rw [heq] at hold
      exact Nat.lt_of_lt_of_le hold hnext
  left := by rw [hchan, h.left]
  addr := by rw [hchan, h.addr]
  room := by rw [hat, h.room]
  buflen := by rw [hbuf, h.buflen]
  moved := by rw [hchan, hat, ← h.moved]
  sends hd := by rw [hat, h.sends hd]
  one := h.one
  wrapped := h.wrapped
  ended := by
    rw [hsem, hpending, hchan]
    exact h.ended
  forever := h.forever
  priv b hb := by
    rcases hpriv with hnone | hsame
    · exact absurd (hb.symm.trans hnone) (Option.some_ne_none b)
    · rw [hsame]
      exact h.priv b hb

theorem Ptr.Old.ne_caller {n : Nat} (h : p.Old n) : p ≠ .caller n := by
  rintro rfl
  exact Nat.lt_irrefl _ h

theorem Ptr.Old.ne_block {n : Nat} (h : p.Old n) : p ≠ .block n := by
  rintro rfl
  exact Nat.lt_irrefl _ h

theorem Ptr.Old.mono {n m : Nat} (h : p.Old n) (hle : n ≤ m) : p.Old m := by
  cases p with
  | null => exact trivial
  | caller k => exact Nat.lt_of_lt_of_le h hle
  | block k => exact Nat.lt_of_lt_of_le h hle

theorem Flies.old_buf (h : Flies u d f) : f.buf.Old u.next := by
  obtain ⟨n, hn, hbuf⟩ := h.buf
  rw [hbuf]
  exact hn

theorem blocks_nodup (h : f.block = none ∨ f.own = none) : f.blocks.Nodup := by
  unfold Flight.blocks
  rcases h with h | h <;> rw [h]
  · cases f.own with
    | none => exact List.nodup_nil
    | some own => exact List.pairwise_singleton _ own
  · cases f.block with
    | none => exact List.nodup_nil
    | some b => exact List.pairwise_singleton _ b

/-- A start: the new transfer has its buffer and its blocks, and nothing old has changed. -/
theorem Inv.launch (h : Inv u) (hd : u.flight d = none) (hfree : Free u d)
    (hflies : Flies v d f) (hbuf : f.buf = .caller u.next) (hnext : u.next ≤ v.next)
    (hfault : v.fault = false) (hflight : v.flight = Function.update u.flight d (some f))
    (hfreed : v.freed = u.freed) (hallocs : v.allocs = u.allocs ++ f.blocks)
    (hnew : ∀ b ∈ f.blocks, u.next ≤ b ∧ b < v.next)
    (hmem : ∀ p, p.Old u.next → v.mem p = u.mem p)
    (hchan : v.chan d.other = u.chan d.other) (hsem : v.sem = u.sem)
    (hpending : v.pending = u.pending) : Inv v := by
  have hself : v.flight d = some f := by rw [hflight, Function.update_self]
  have hother : v.flight d.other = u.flight d.other := by
    rw [hflight, Function.update_of_ne (Dir.other_ne d)]
  have hne (g : Flight) (hg : v.flight d.other = some g) : f.buf ≠ g.buf := by
    obtain ⟨n, hn, hgbuf⟩ := (h.flies _ g (hother.symm.trans hg)).buf
    rw [hbuf, hgbuf]
    intro heq
    obtain rfl := Ptr.caller.inj heq
    exact Nat.lt_irrefl _ hn
  refine ⟨hfault, fun e g hg => ?_, fun e he => ?_, fun f' g' hf' hg' => ?_, ?_, ?_, fun b hb => ?_⟩
  · rcases Dir.eq_or_eq_other d e with rfl | rfl
    · obtain rfl := Option.some.inj (hself.symm.trans hg)
      exact hflies
    · have hg' := hother.symm.trans hg
      have hold := h.flies _ g hg'
      exact hold.frame hnext hchan (by rw [hsem]) (by rw [hpending]) (hmem _ hold.old)
        (hmem _ hold.old_buf) (.inl (hfree g hg'))
  · rcases Dir.eq_or_eq_other d e with rfl | rfl
    · exact absurd (hself.symm.trans he) (Option.some_ne_none f)
    · rw [hchan]
      exact h.idle _ (hother.symm.trans he)
  · cases d with
    | tx =>
      obtain rfl := Option.some.inj (hself.symm.trans hf')
      exact hne g' hg'
    | rx =>
      obtain rfl := Option.some.inj (hself.symm.trans hg')
      exact (hne f' hf').symm
  · have hperm := h.perm d
    rw [held_of_none hd, List.nil_append] at hperm
    refine (held_comm d).trans ?_
    rw [held_of_some hself, held_congr hother, hfreed, hallocs]
    refine List.Perm.trans ?_ (hperm.append_right f.blocks)
    rw [List.append_assoc]
    exact List.Perm.append_left _ List.perm_append_comm
  · rw [hallocs, List.nodup_append]
    refine ⟨h.nodup, blocks_nodup hflies.one, fun b hb b' hb' heq => ?_⟩
    have hlt := h.lt b hb
    have hge := (hnew b' hb').1
    omega
  · rw [hallocs, List.mem_append] at hb
    rcases hb with hb | hb
    · exact Nat.lt_of_lt_of_le (h.lt b hb) hnext
    · exact (hnew b hb).2

/-- A stop: the blocks of the transfer are freed, and only its buffer has changed. -/
theorem Inv.landed (h : Inv u) (hf : u.flight d = some f) (hfault : v.fault = false)
    (hflight : v.flight = Function.update u.flight d none) (hnext : v.next = u.next)
    (hfreed : v.freed = u.freed ++ f.blocks) (hallocs : v.allocs = u.allocs)
    (hmem : ∀ p, p ≠ f.buf → v.mem p = u.mem p)
    (hchan : v.chan d.other = u.chan d.other) (hstop : (v.chan d).running = false)
    (hsem : v.sem = u.sem) (hpending : v.pending = u.pending)
    (hpriv : Free u d ∨ v.priv = u.priv) : Inv v := by
  have hself : v.flight d = none := by rw [hflight, Function.update_self]
  have hother : v.flight d.other = u.flight d.other := by
    rw [hflight, Function.update_of_ne (Dir.other_ne d)]
  refine ⟨hfault, fun e g hg => ?_, fun e he => ?_, fun f' g' hf' hg' => ?_, ?_, ?_, fun b hb => ?_⟩
  · rcases Dir.eq_or_eq_other d e with rfl | rfl
    · exact absurd (hself.symm.trans hg) (Option.some_ne_none g).symm
    · have hg' := hother.symm.trans hg
      have hat := (h.at_ne hf hg').2.2
      refine (h.flies _ g hg').frame (Nat.le_of_eq hnext.symm) hchan (by rw [hsem])
        (by rw [hpending]) (hmem _ hat.symm) (hmem _ (h.bufs_ne hf hg').symm) ?_
      exact hpriv.imp (fun hfree => hfree g hg') id
  · rcases Dir.eq_or_eq_other d e with rfl | rfl
    · exact hstop
    · rw [hchan]
      exact h.idle _ (hother.symm.trans he)
  · cases d with
    | tx => exact absurd (hself.symm.trans hf') (Option.some_ne_none f').symm
    | rx => exact absurd (hself.symm.trans hg') (Option.some_ne_none g').symm
  · have hperm := h.perm d
    rw [held_of_some hf] at hperm
    refine (held_comm d).trans ?_
    rw [held_of_none hself, held_congr hother, hfreed, hallocs, List.nil_append, List.append_assoc]
    exact hperm
  · rw [hallocs]
    exact h.nodup
  · rw [hallocs] at hb
    rw [hnext]
    exact h.lt b hb

/-- A call that starts nothing: what it allocates it frees. -/
theorem Inv.quiet (h : Inv u) (blocks : List Nat) (hfault : v.fault = false)
    (hflight : v.flight = u.flight) (hnext : u.next ≤ v.next)
    (hfreed : v.freed = u.freed ++ blocks) (hallocs : v.allocs = u.allocs ++ blocks)
    (hnodup : blocks.Nodup) (hnew : ∀ b ∈ blocks, u.next ≤ b ∧ b < v.next)
    (hmem : ∀ p, p.Old u.next → v.mem p = u.mem p) (hchan : v.chan = u.chan)
    (hsem : v.sem = u.sem) (hpending : v.pending = u.pending)
    (hpriv : (∀ d f, u.flight d = some f → f.block = none) ∨ v.priv = u.priv) : Inv v := by
  refine ⟨hfault, fun e g hg => ?_, fun e he => ?_, fun f' g' hf' hg' => ?_, ?_, ?_, fun b hb => ?_⟩
  · rw [hflight] at hg
    have hold := h.flies e g hg
    exact hold.frame hnext (by rw [hchan]) (by rw [hsem]) (by rw [hpending]) (hmem _ hold.old)
      (hmem _ hold.old_buf) (hpriv.imp (fun hfree => hfree e g hg) id)
  · rw [hchan]
    rw [hflight] at he
    exact h.idle e he
  · rw [hflight] at hf' hg'
    exact h.bufs f' g' hf' hg'
  · have htx : v.held .tx = u.held .tx := held_congr (by rw [hflight])
    have hrx : v.held .rx = u.held .rx := held_congr (by rw [hflight])
    rw [htx, hrx, hfreed, hallocs]
    refine List.Perm.trans ?_ (h.held.append_right blocks)
    rw [List.append_assoc, List.append_assoc]
    exact List.Perm.append_left _ List.perm_append_comm
  · rw [hallocs, List.nodup_append]
    refine ⟨h.nodup, hnodup, fun b hb b' hb' heq => ?_⟩
    have hlt := h.lt b hb
    have hge := (hnew b' hb').1
    omega
  · rw [hallocs, List.mem_append] at hb
    rcases hb with hb | hb
    · exact Nat.lt_of_lt_of_le (h.lt b hb) hnext
    · exact (hnew b hb).2

theorem no_blocks (hd : u.flight d = none) (hfree : Free u d) :
    ∀ e f, u.flight e = some f → f.block = none := by
  intro e f hf
  rcases Dir.eq_or_eq_other d e with rfl | rfl
  · exact absurd (hd.symm.trans hf) (Option.some_ne_none f).symm
  · exact hfree f hf

/-- A transfer whose DMA was started just now. -/
theorem Flies.new (hchan : v.chan d = ⟨f.at, f.data.length, [], true⟩)
    (hbuf : f.buf = .caller u.next) (hnext : u.next < v.next) (hold : f.at.Old v.next)
    (hat : (v.mem f.at).length = f.data.length) (hmem : v.mem f.buf = f.data)
    (hsends : d = .tx → v.mem f.at = f.data) (hone : f.block = none ∨ f.own = none)
    (hwrapped : f.own.isSome → f.wrapped = true)
    (hended : f.wrapped = true → Untold v d ∧ (d = .tx → f.forever = true))
    (hpriv : ∀ b, f.block = some b → v.priv.useingDmaBuf = true ∧ v.priv.dmabuf = .block b ∧
      (d = .rx → v.priv.callerbuf = f.buf ∧ v.priv.callerbufLen = f.data.length)) :
    Flies v d f where
  buf := ⟨u.next, hnext, hbuf⟩
  old := hold
  left := by rw [hchan]; rfl
  addr := by rw [hchan]
  room := hat
  buflen := by rw [hmem]
  moved := by rw [hchan]; rfl
  sends := hsends
  one := hone
  wrapped := hwrapped
  ended hw htold := by
    obtain ⟨⟨hsem, hpending⟩, -⟩ := hended hw
    rw [hsem, hpending, or_self] at htold
    exact absurd htold Bool.false_ne_true
  forever hd hw := (hended hw).2 hd
  priv := hpriv

/-! ## The starts -/

variable {buf : Ptr} {data : List Byte} {size : Nat} {psram forever timeout : Bool} {room : Room}
  {garbage : Nat → Byte}

theorem dmaStart_eq (h0 : size ≠ 0) (hmax : size ≤ dataMaxLen) :
    u.dmaStart d p size = { u with chan := Function.update u.chan d ⟨p, size, [], true⟩ } := by
  rw [Uart.dmaStart, if_neg (by omega)]

theorem startDma_direct (h0 : size ≠ 0) (hmax : size ≤ dataMaxLen) :
    startDma d u buf size false room =
      ({ u with
        priv := { u.priv with useingDmaBuf := false }
        chan := Function.update u.chan d ⟨buf, size, [], true⟩ }, 0, none) := by
  rw [startDma, if_neg h0]
  exact congrArg (·, (0 : Int), none) (dmaStart_eq h0 hmax)

theorem startDma_full (h0 : size ≠ 0) :
    startDma d u buf size true none =
      ({ u with priv := { u.priv with useingDmaBuf := true } }, -1, none) := by
  rw [startDma, if_neg h0]
  rfl

/-- The record of a bounced transfer. -/
def bouncedPriv (d : Dir) (priv : DmaHeapPriv) (b : Nat) (buf : Ptr) (size : Nat) : DmaHeapPriv :=
  match d with
  | .tx => { priv with useingDmaBuf := true, dmabuf := .block b }
  | .rx => ⟨true, size % 2 ^ 24, buf, .block b⟩

theorem bouncedPriv_eq {priv : DmaHeapPriv} (hmax : size ≤ dataMaxLen) :
    (bouncedPriv d priv b buf size).useingDmaBuf = true ∧
      (bouncedPriv d priv b buf size).dmabuf = .block b ∧
      (d = .rx → (bouncedPriv d priv b buf size).callerbuf = buf ∧
        (bouncedPriv d priv b buf size).callerbufLen = size) := by
  unfold dataMaxLen at hmax
  cases d with
  | tx => exact ⟨rfl, rfl, fun h => Dir.noConfusion h⟩
  | rx => exact ⟨rfl, rfl, fun _ => ⟨rfl, Nat.mod_eq_of_lt (by omega)⟩⟩

/-- What a block holds when its DMA starts. -/
def bouncedMem (d : Dir) (data : List Byte) (garbage : Nat → Byte) : List Byte :=
  match d with
  | .tx => data
  | .rx => (List.range data.length).map garbage

theorem length_bouncedMem : (bouncedMem d data garbage).length = data.length := by
  cases d with
  | tx => rfl
  | rx => exact (List.length_map ..).trans List.length_range

theorem memcpy_eq {q : Ptr} {n : Int} (hp : u.Reaches p n) (hq : u.Reaches q n) :
    u.memcpy p q n = { u with
      mem := Function.update u.mem p ((u.mem q).take n.toNat ++ (u.mem p).drop n.toNat) } :=
  if_pos ⟨hp, hq⟩

theorem freed_lt (h : Inv u) (hb : b ∈ u.freed) : b < u.next :=
  h.lt b (h.held.mem_iff.mp (List.mem_append_left _ hb))

/-- The copy of the caller's buffer in a new block. -/
theorem memcpy_new (garbage : Nat → Byte) (h : ∀ b ∈ u.freed, b < u.next) (hbuf : buf ≠ .block u.next)
    (hvalid : u.Valid buf) (hdata : u.mem buf = data) :
    Uart.memcpy { u with
        mem := Function.update u.mem (.block u.next) ((List.range data.length).map garbage)
        next := u.next + 1
        allocs := u.allocs ++ [u.next] } (.block u.next) buf data.length =
      { u with
        mem := Function.update u.mem (.block u.next) data
        next := u.next + 1
        allocs := u.allocs ++ [u.next] } := by
  have hlen : ((List.range data.length).map garbage).length = data.length :=
    (List.length_map ..).trans List.length_range
  rw [memcpy_eq]
  · dsimp only
    rw [Function.update_self, Function.update_of_ne hbuf, hdata, Int.toNat_natCast,
      List.take_length, List.drop_of_length_le (Nat.le_of_eq hlen), List.append_nil,
      Function.update_idem]
  · refine ⟨Int.natCast_nonneg _, ?_, ?_⟩
    · dsimp only
      exact Int.le_of_eq (by rw [Function.update_self, hlen])
    · exact ⟨List.mem_append_right _ List.mem_cons_self, fun hb => Nat.lt_irrefl _ (h _ hb)⟩
  · refine ⟨Int.natCast_nonneg _, ?_, ?_⟩
    · dsimp only
      exact Int.le_of_eq (by rw [Function.update_of_ne hbuf, hdata])
    · cases buf with
      | null => exact trivial
      | caller k => exact trivial
      | block k => exact ⟨List.mem_append_left _ hvalid.1, hvalid.2⟩

theorem startDma_bounced (h : ∀ b ∈ u.freed, b < u.next) (hbuf : buf ≠ .block u.next)
    (hvalid : u.Valid buf) (hdata : u.mem buf = data) (h0 : data.length ≠ 0)
    (hmax : data.length ≤ dataMaxLen) :
    startDma d u buf data.length true (some garbage) =
      ({ u with
        mem := Function.update u.mem (.block u.next) (bouncedMem d data garbage)
        next := u.next + 1
        allocs := u.allocs ++ [u.next]
        priv := bouncedPriv d u.priv u.next buf data.length
        chan := Function.update u.chan d ⟨.block u.next, data.length, [], true⟩ },
        0, some u.next) := by
  rw [startDma, if_neg h0]
  cases d with
  | tx =>
    have hcopy := memcpy_new garbage
      (u := { u with priv := { u.priv with useingDmaBuf := true } }) h hbuf hvalid hdata
    refine (congrArg (fun w : Uart => (Uart.dmaStart
      { w with priv := { w.priv with dmabuf := .block u.next } } .tx (.block u.next) data.length,
      (0 : Int), some u.next)) hcopy).trans ?_
    exact congrArg (·, (0 : Int), some u.next) (dmaStart_eq h0 hmax)
  | rx =>
    exact congrArg (·, (0 : Int), some u.next) (dmaStart_eq h0 hmax)

theorem place_old {n : Nat} (h : p.Old u.next) (hn : u.next ≤ n) (data bytes : List Byte) :
    Function.update (Function.update u.mem (.caller u.next) data) (.block n) bytes p = u.mem p := by
  rw [Function.update_of_ne (h.mono hn).ne_block, Function.update_of_ne h.ne_caller]

theorem start_inv (h : Inv u) (hd : u.flight d = none)
    (hapart : Apart u (.start d data psram room)) :
    Inv (step u (.start d data psram room)).1 := by
  have hlt : ∀ b ∈ u.freed, b < u.next + 1 := fun b hb => Nat.lt_succ_of_lt (freed_lt h hb)
  have hplace {p : Ptr} (hp : p.Old u.next) : (u.place data).mem p = u.mem p :=
    Function.update_of_ne hp.ne_caller ..
  dsimp only [step]
  by_cases h0 : data.length = 0
  · rw [h0, startDma, if_pos rfl]
    exact h.quiet [] h.fault rfl (Nat.le_succ _) (List.append_nil _).symm
      (List.append_nil _).symm List.nodup_nil (List.forall_mem_nil _) (fun p hp => hplace hp) rfl
      rfl rfl (.inr rfl)
  obtain ⟨hfree, hmax⟩ := hapart (fun hnil => h0 (congrArg List.length hnil))
  have hown : (u.place data).mem (.caller u.next) = data := Function.update_self ..
  cases psram with
  | false =>
    have hmax' : data.length ≤ dataMaxLen := hmax (fun hp => absurd hp Bool.false_ne_true)
    rw [startDma_direct h0 hmax', if_neg (not_not.mpr rfl)]
    refine h.launch (f := ⟨data, .caller u.next, none, none, false, false⟩) hd hfree ?_ rfl
      (Nat.le_succ _) h.fault rfl rfl (List.append_nil _).symm (List.forall_mem_nil _)
      (fun p hp => hplace hp) (Function.update_of_ne (Dir.other_ne d) ..) rfl rfl
    refine Flies.new (u := u) (Function.update_self ..) rfl (Nat.lt_succ_self _)
      (Nat.lt_succ_self _) (congrArg List.length hown) hown (fun _ => hown) (.inl rfl)
      (fun ho => absurd ho Bool.false_ne_true) nofun
      (fun b hb => absurd hb.symm (Option.some_ne_none b))
  | true =>
    cases room with
    | none =>
      rw [startDma_full h0]
      exact h.quiet [] h.fault rfl (Nat.le_succ _) (List.append_nil _).symm
        (List.append_nil _).symm List.nodup_nil (List.forall_mem_nil _) (fun p hp => hplace hp) rfl
        rfl rfl (.inl (no_blocks hd hfree))
    | some garbage =>
      have hmax' : data.length ≤ dataMaxLen := hmax (fun _ => rfl)
      have hne : (Ptr.caller u.next) ≠ .block (u.place data).next := fun h => Ptr.noConfusion h
      rw [startDma_bounced (u := u.place data) hlt hne trivial hown h0 hmax',
        if_neg (not_not.mpr rfl)]
      refine h.launch (f := ⟨data, .caller u.next, some (u.next + 1), none, false, false⟩) hd hfree
        ?_ rfl (Nat.le_add_right u.next 2) h.fault rfl rfl rfl ?_
        (fun p hp => place_old hp (Nat.le_succ _) _ _)
        (Function.update_of_ne (Dir.other_ne d) ..) rfl rfl
      · have hblock : Function.update (u.place data).mem (.block (u.next + 1))
            (bouncedMem d data garbage) (.block (u.next + 1)) = bouncedMem d data garbage :=
          Function.update_self ..
        have hkeep : Function.update (u.place data).mem (.block (u.next + 1))
            (bouncedMem d data garbage) (.caller u.next) = data :=
          (Function.update_of_ne hne ..).trans hown
        refine Flies.new (u := u) (Function.update_self ..) rfl (show u.next < u.next + 2 by omega)
          (Nat.lt_succ_self _) ?_ ?_ ?_ (.inr rfl) (fun ho => absurd ho Bool.false_ne_true) nofun ?_
        · exact (congrArg List.length hblock).trans length_bouncedMem
        · exact hkeep
        · rintro rfl
          exact hblock
        · intro b hb
          obtain rfl := Option.some.inj hb
          exact bouncedPriv_eq hmax'
      · intro b hb
        obtain rfl := List.mem_singleton.mp hb
        exact ⟨Nat.le_succ _, Nat.lt_succ_self _⟩

theorem dmaFree_live (h : u.Live b) :
    u.dmaFree (.block b) = { u with freed := u.freed ++ [b] } :=
  if_pos h

/-- What the function around a stop does to the memory. -/
def outMem (d : Dir) (mem : Ptr → List Byte) (buf : Ptr) (b : Nat) : Ptr → List Byte :=
  match d with
  | .tx => mem
  | .rx => Function.update mem buf (mem (.block b))

theorem wrapperOut_eq (hlive : u.Live b) (hvalid : u.Valid buf)
    (hbuf : (u.mem buf).length = size) (hown : (u.mem (.block b)).length = size) :
    wrapperOut d u buf size (some b) =
      { u with freed := u.freed ++ [b], mem := outMem d u.mem buf b } := by
  cases d with
  | tx => exact dmaFree_live hlive
  | rx =>
    have hto : u.Reaches buf size :=
      ⟨Int.natCast_nonneg _, Int.le_of_eq (by rw [hbuf]), hvalid⟩
    have hfrom : u.Reaches (.block b) size :=
      ⟨Int.natCast_nonneg _, Int.le_of_eq (by rw [hown]), hlive⟩
    have htake : (u.mem (.block b)).take size = u.mem (.block b) :=
      List.take_of_length_le (Nat.le_of_eq hown)
    have hdrop : (u.mem buf).drop size = [] := List.drop_of_length_le (Nat.le_of_eq hbuf)
    rw [wrapperOut, memcpy_eq hto hfrom, Int.toNat_natCast, htake, hdrop, List.append_nil]
    exact dmaFree_live hlive

theorem outMem_ne (h : p ≠ buf) (mem : Ptr → List Byte) : outMem d mem buf b p = mem p := by
  cases d with
  | tx => rfl
  | rx => exact Function.update_of_ne h ..

/-- The call with a block of its own, which holds what the transmitter copied there. -/
theorem wrapperStart_own (h : ∀ b ∈ u.freed, b < u.next) (hbuf : buf ≠ .block u.next)
    (hvalid : u.Valid buf) (hdata : u.mem buf = data) :
    wrapperStart d u buf data true (some garbage) forever =
      let w : Uart := { u with
        mem := Function.update u.mem (.block u.next) (bouncedMem d data garbage)
        next := u.next + 1
        allocs := u.allocs ++ [u.next] }
      let (v, ret, block) := startDma d w (.block u.next) data.length false none
      if ret ≠ 0 then (wrapperOut d v buf data.length (some u.next), -1)
      else (v.fly d ⟨data, buf, block, some u.next, true, d = .tx ∨ forever⟩, 0) := by
  cases d with
  | tx =>
    exact congrArg (fun w : Uart =>
      let (v, ret, block) := startDma .tx w (.block u.next) data.length false none
      if ret ≠ 0 then (wrapperOut .tx v buf data.length (some u.next), (-1 : Int))
      else (v.fly .tx ⟨data, buf, block, some u.next, true,
        decide (Dir.tx = Dir.tx ∨ forever = true)⟩, 0))
      (memcpy_new garbage h hbuf hvalid hdata)
  | rx => rfl

theorem call_inv (h : Inv u) (hd : u.flight d = none)
    (hapart : Apart u (.call d data psram room forever)) :
    Inv (step u (.call d data psram room forever)).1 := by
  have hlt : ∀ b ∈ u.freed, b < u.next + 1 := fun b hb => Nat.lt_succ_of_lt (freed_lt h hb)
  have hplace {p : Ptr} (hp : p.Old u.next) : (u.place data).mem p = u.mem p :=
    Function.update_of_ne hp.ne_caller ..
  have hown : (u.place data).mem (.caller u.next) = data := Function.update_self ..
  have hne : (Ptr.caller u.next) ≠ .block (u.place data).next := fun h => Ptr.noConfusion h
  have hquiet : Inv (u.place data) :=
    h.quiet [] h.fault rfl (Nat.le_succ _) (List.append_nil _).symm
      (List.append_nil _).symm List.nodup_nil (List.forall_mem_nil _) (fun p hp => hplace hp) rfl
      rfl rfl (.inr rfl)
  have hforever : d = .tx → decide (d = .tx ∨ forever = true) = true :=
    fun hd => decide_eq_true (.inl hd)
  dsimp only [step]
  cases psram with
  | false =>
    have hbounces : ¬bounces false = true := Bool.false_ne_true
    rw [wrapperStart, if_neg hbounces]
    by_cases h0 : data.length = 0
    · rw [h0, startDma, if_pos rfl]
      exact hquiet
    have hdata : data ≠ [] := fun hnil => h0 (congrArg List.length hnil)
    obtain ⟨hfree, hmax, huntold⟩ := hapart hdata (fun hp => absurd hp Bool.false_ne_true)
    rw [startDma_direct h0 hmax]
    dsimp only
    rw [if_neg (not_not.mpr rfl)]
    refine h.launch (f := ⟨data, .caller u.next, none, none, true, d = .tx ∨ forever⟩) hd hfree ?_
      rfl (Nat.le_succ _) h.fault rfl rfl (List.append_nil _).symm (List.forall_mem_nil _)
      (fun p hp => hplace hp) (Function.update_of_ne (Dir.other_ne d) ..) rfl rfl
    exact Flies.new (u := u) (Function.update_self ..) rfl (Nat.lt_succ_self _)
      (Nat.lt_succ_self _) (congrArg List.length hown) hown (fun _ => hown) (.inl rfl)
      (fun _ => rfl) (fun _ => ⟨huntold, hforever⟩)
      (fun b hb => absurd hb.symm (Option.some_ne_none b))
  | true =>
    cases room with
    | none => exact hquiet
    | some garbage =>
      rw [wrapperStart_own (u := u.place data) hlt hne trivial hown]
      have hblock : Function.update (u.place data).mem (.block (u.next + 1))
          (bouncedMem d data garbage) (.block (u.next + 1)) = bouncedMem d data garbage :=
        Function.update_self ..
      have hkeep : Function.update (u.place data).mem (.block (u.next + 1))
          (bouncedMem d data garbage) (.caller u.next) = data :=
        (Function.update_of_ne hne ..).trans hown
      dsimp only
      by_cases h0 : data.length = 0
      · have hlive : u.next + 1 ∈ u.allocs ++ [u.next + 1] ∧ u.next + 1 ∉ u.freed :=
          ⟨List.mem_append_right _ List.mem_cons_self,
            fun hb => Nat.lt_irrefl _ (hlt _ hb)⟩
        have hneg : (-1 : Int) ≠ 0 := by decide
        rw [h0, startDma, if_pos rfl]
        dsimp only
        rw [if_pos hneg, wrapperOut_eq]
        · refine h.quiet [u.next + 1] h.fault rfl (Nat.le_add_right u.next 2) rfl rfl
            (List.pairwise_singleton _ _) ?_ ?_ rfl rfl rfl (.inr rfl)
          · intro b hb
            obtain rfl := List.mem_singleton.mp hb
            exact ⟨Nat.le_succ _, Nat.lt_succ_self _⟩
          · intro p hp
            exact (outMem_ne hp.ne_caller _).trans (place_old hp (Nat.le_succ _) _ _)
        · exact hlive
        · exact trivial
        · exact (congrArg List.length hkeep).trans h0
        · exact (congrArg List.length hblock).trans (length_bouncedMem.trans h0)
      · have hdata : data ≠ [] := fun hnil => h0 (congrArg List.length hnil)
        obtain ⟨hfree, hmax, huntold⟩ := hapart hdata (fun _ => rfl)
        rw [startDma_direct h0 hmax, if_neg (not_not.mpr rfl)]
        refine h.launch
          (f := ⟨data, .caller u.next, none, some (u.next + 1), true, d = .tx ∨ forever⟩) hd hfree
          ?_ rfl (Nat.le_add_right u.next 2) h.fault rfl rfl rfl ?_
          (fun p hp => place_old hp (Nat.le_succ _) _ _)
          (Function.update_of_ne (Dir.other_ne d) ..) rfl rfl
        · refine Flies.new (u := u) (Function.update_self ..) rfl
            (show u.next < u.next + 2 by omega) (Nat.lt_succ_self _) ?_ ?_ ?_ (.inl rfl)
            (fun _ => rfl) (fun _ => ⟨huntold, hforever⟩)
            (fun b hb => absurd hb.symm (Option.some_ne_none b))
          · exact (congrArg List.length hblock).trans length_bouncedMem
          · exact hkeep
          · rintro rfl
            exact hblock
        · intro b hb
          obtain rfl := List.mem_singleton.mp hb
          exact ⟨Nat.le_succ _, Nat.lt_succ_self _⟩

/-! ## The DMA and the stops -/

/-- The channel of one direction has moved on: the memory of its transfer may have changed. -/
theorem Inv.advance (h : Inv u) (hf : u.flight d = some f) {mem : Ptr → List Byte} {c : Channel}
    {pending : Bool} (hpending : f.wrapped = true → u.sem d = true ∨ pending = true → c.byteCnt = 0)
    (hleft : c.byteCnt + c.moved.length = f.data.length) (haddr : c.addr = f.at)
    (hroom : (mem f.at).length = f.data.length) (hmoved : c.moved = (mem f.at).take c.moved.length)
    (hsends : d = .tx → mem f.at = f.data) (hmem : ∀ p, p ≠ f.at → mem p = u.mem p) :
    Inv { u with
      mem := mem
      pending := Function.update u.pending d pending
      chan := Function.update u.chan d c } := by
  have hself : Function.update u.chan d c d = c := Function.update_self ..
  have hpendingSelf : Function.update u.pending d pending d = pending := Function.update_self ..
  have hold := h.flies d f hf
  have hbuflen : (mem f.buf).length = f.data.length := by
    by_cases hsame : f.buf = f.at
    · rw [hsame, hroom]
    · rw [hmem _ hsame, hold.buflen]
  refine ⟨h.fault, fun e g hg => ?_, fun e he => ?_, h.bufs, h.held, h.nodup, h.lt⟩
  · rcases Dir.eq_or_eq_other d e with rfl | rfl
    · obtain rfl := Option.some.inj (hf.symm.trans hg)
      rw [← hself] at hleft haddr hmoved hpending
      rw [← hpendingSelf] at hpending
      exact ⟨hold.buf, hold.old, hleft, haddr, hroom, hbuflen, hmoved, hsends, hold.one,
        hold.wrapped, hpending, hold.forever, hold.priv⟩
    · obtain ⟨hat, hbuf, -⟩ := h.at_ne hf hg
      exact (h.flies _ g hg).frame (Nat.le_refl _) (Function.update_of_ne (Dir.other_ne d) ..) rfl
        (Function.update_of_ne (Dir.other_ne d) ..) (hmem _ hat.symm) (hmem _ hbuf.symm) (.inr rfl)
  · rcases Dir.eq_or_eq_other d e with rfl | rfl
    · exact absurd (hf.symm.trans he) (Option.some_ne_none f)
    · exact (congrArg Channel.running (Function.update_of_ne (Dir.other_ne d) ..)).trans
        (h.idle _ he)

theorem move_inv (h : Inv u) (d : Dir) (byte : Byte) : Inv (step u (.move d byte)).1 := by
  dsimp only [step, Uart.dmaMove]
  by_cases hrun : (u.chan d).running ∧ 0 < (u.chan d).byteCnt
  · rw [if_pos hrun]
    cases hf : u.flight d with
    | none =>
      rw [h.idle d hf] at hrun
      exact absurd hrun.1 Bool.false_ne_true
    | some f =>
      have hflies := h.flies d f hf
      have hleft := hflies.left
      have hroom := hflies.room
      have hmoved := hflies.moved
      have hlt : (u.chan d).moved.length < (u.mem f.at).length := by omega
      have hreach : u.Reaches f.at ((u.chan d).moved.length + 1) :=
        ⟨by omega, by omega, h.valid hf⟩
      have hnext (x : Byte) :
          (u.chan d).byteCnt - 1 + ((u.chan d).moved ++ [x]).length = f.data.length := by
        rw [List.length_append, List.length_singleton]
        omega
      have hpending : f.wrapped = true →
          u.sem d = true ∨ (u.pending d || decide ((u.chan d).byteCnt = 1)) = true →
          (u.chan d).byteCnt - 1 = 0 := by
        intro hw htold
        rw [Bool.or_eq_true, decide_eq_true_eq, ← or_assoc] at htold
        rcases htold with htold | hone
        · have hzero := hflies.ended hw htold
          omega
        · omega
      rw [hflies.addr, if_pos hreach]
      cases d with
      | tx =>
        refine h.advance hf hpending (hnext _) rfl hroom ?_ hflies.sends (fun p _ => rfl)
        dsimp only
        rw [List.length_append, List.length_singleton, List.take_add_one,
          List.getD_eq_getElem?_getD, List.getElem?_eq_getElem hlt, ← hmoved]
        rfl
      | rx =>
        have hset : (u.mem f.at).set (u.chan .rx).moved.length byte =
            (u.chan .rx).moved ++ [byte] ++ (u.mem f.at).drop ((u.chan .rx).moved.length + 1) := by
          rw [List.set_eq_take_append_cons_drop, if_pos hlt, ← hmoved, List.append_cons]
        refine h.advance hf hpending (hnext byte) rfl ?_ ?_ (fun hd => Dir.noConfusion hd)
          (fun p hp => Function.update_of_ne hp ..)
        · rw [Function.update_self, List.length_set, hroom]
        · rw [Function.update_self, hset]
          exact (List.take_left' rfl).symm
  · rw [if_neg hrun]
    exact h

/-- The tokens and the interrupts of one direction have changed: what they tell stays true. -/
theorem Inv.retell (h : Inv u) {sem pending : Dir → Bool}
    (htold : ∀ e, sem e = true ∨ pending e = true → u.sem e = true ∨ u.pending e = true) :
    Inv { u with sem := sem, pending := pending } := by
  refine ⟨h.fault, fun e g hg => ?_, h.idle, h.bufs, h.held, h.nodup, h.lt⟩
  have hold := h.flies e g hg
  exact { hold with ended := fun hw hnew => hold.ended hw (htold e hnew) }

theorem irq_inv (h : Inv u) (d : Dir) : Inv (step u (.irq d)).1 := by
  dsimp only [step, Uart.dmaEnd]
  split
  · rename_i hpending
    refine h.retell fun e htold => ?_
    rcases Dir.eq_or_eq_other d e with rfl | rfl
    · exact .inr hpending
    · rwa [Function.update_of_ne (Dir.other_ne d), Function.update_of_ne (Dir.other_ne d)] at htold
  · exact h

theorem dmaStop_left (d : Dir) (u : Uart) :
    ((u.dmaStop d).chan d).byteCnt = (u.chan d).byteCnt := by
  rw [Uart.dmaStop]
  dsimp only
  rw [Function.update_self]

theorem stopDma_left (d : Dir) (u : Uart) : (stopDma d u).2 = (u.chan d).byteCnt := by
  have hleft : ((((u.dmaStop d).chan d).byteCnt : Nat) : Int) = (u.chan d).byteCnt :=
    congrArg _ (dmaStop_left d u)
  unfold stopDma
  dsimp only
  split
  · cases d with
    | tx => exact hleft
    | rx => exact hleft
  · exact hleft

/-- The channel when it is stopped. -/
def stoppedChan (u : Uart) (d : Dir) : Dir → Channel :=
  Function.update u.chan d { u.chan d with running := false }

theorem stopDma_direct (hpriv : u.priv.useingDmaBuf = false) :
    (stopDma d u).1 = { u with chan := stoppedChan u d } := by
  have huseing : ¬(u.dmaStop d).priv.useingDmaBuf = true :=
    fun h => Bool.false_ne_true (hpriv.symm.trans h)
  unfold stopDma
  dsimp only
  rw [if_neg huseing]
  rfl

/-- What a stop does to the memory of a bounced transfer. -/
def stopMem (d : Dir) (u : Uart) (f : Flight) : Ptr → List Byte :=
  match d with
  | .tx => u.mem
  | .rx => Function.update u.mem f.buf
    ((u.chan .rx).moved ++ (u.mem f.buf).drop (u.chan .rx).moved.length)

theorem stopDma_bounced (h : Inv u) (hf : u.flight d = some f) (hb : f.block = some b) :
    ∃ priv, (stopDma d u).1 = { u with
      freed := u.freed ++ [b]
      mem := stopMem d u f
      priv := priv
      chan := stoppedChan u d } := by
  have hflies := h.flies d f hf
  have hlive := h.live hf (mem_blocks_of_block hb)
  obtain ⟨huseing, hdmabuf, hcaller⟩ := hflies.priv b hb
  have hat : f.at = .block b := by rw [Flight.at, hb]
  unfold stopDma
  dsimp only
  rw [if_pos (show (u.dmaStop d).priv.useingDmaBuf = true from huseing)]
  cases d with
  | tx =>
    have hfree : Uart.dmaFree (u.dmaStop .tx) (u.dmaStop .tx).priv.dmabuf =
        { u.dmaStop .tx with freed := u.freed ++ [b] } := by
      rw [show (u.dmaStop .tx).priv.dmabuf = .block b from hdmabuf]
      exact dmaFree_live hlive
    dsimp only
    rw [hfree]
    exact ⟨_, rfl⟩
  | rx =>
    obtain ⟨hcallerbuf, hcallerLen⟩ := hcaller rfl
    have hleft := hflies.left
    have hroom := hflies.room
    have hbuflen := hflies.buflen
    have hmoved := hflies.moved
    rw [hat] at hroom hmoved
    have hlen : ((f.data.length : Nat) : Int) - (u.chan .rx).byteCnt =
        ((u.chan .rx).moved.length : Nat) := by omega
    have hto : (u.dmaStop .rx).Reaches f.buf ((u.chan .rx).moved.length : Nat) :=
      ⟨Int.natCast_nonneg _, Int.ofNat_le.mpr (by rw [Uart.dmaStop, hbuflen]; omega),
        h.valid_buf hf⟩
    have hfrom : (u.dmaStop .rx).Reaches (.block b) ((u.chan .rx).moved.length : Nat) :=
      ⟨Int.natCast_nonneg _, Int.ofNat_le.mpr (by rw [Uart.dmaStop, hroom]; omega), hlive⟩
    have hcopy := memcpy_eq hto hfrom
    rw [Int.toNat_natCast, show (u.dmaStop .rx).mem = u.mem from rfl, ← hmoved] at hcopy
    have hfree := dmaFree_live (u := (u.dmaStop .rx).memcpy f.buf (.block b)
      ((u.chan .rx).moved.length : Nat)) (b := b) (by rw [hcopy]; exact hlive)
    rw [hcopy] at hfree
    dsimp only
    rw [dmaStop_left, show (u.dmaStop .rx).priv = u.priv from rfl, hcallerbuf, hcallerLen, hlen,
      hdmabuf, hcopy]
    dsimp only
    rw [show (u.dmaStop .rx).priv.dmabuf = .block b from hdmabuf, hfree]
    exact ⟨_, rfl⟩

/-- What a stop must do: free the blocks of its transfer and no others, and leave the received
bytes at the start of the buffer. -/
structure Stopped (u v : Uart) (d : Dir) (f : Flight) : Prop where
  inv : Inv v
  freed : v.freed = u.freed ++ f.blocks
  flight : v.flight d = none
  received : d = .rx → (v.mem f.buf).length = f.data.length ∧ (u.chan d).moved <+: v.mem f.buf

theorem stoppedChan_other : stoppedChan u d d.other = u.chan d.other :=
  Function.update_of_ne (Dir.other_ne d) ..

theorem stoppedChan_running : (stoppedChan u d d).running = false := by
  rw [stoppedChan, Function.update_self]

theorem land_fst (hown : f.own = none) :
    (land d u f).1 =
      { (stopDma d u).1 with flight := Function.update (stopDma d u).1.flight d none } := by
  unfold land
  dsimp only
  rw [hown]
  split <;> rfl

theorem land_fst_own (hwrapped : f.wrapped = true) :
    (land d u f).1 = wrapperOut d
      { (stopDma d u).1 with flight := Function.update (stopDma d u).1.flight d none }
      f.buf f.data.length f.own := by
  unfold land
  dsimp only
  rw [if_pos hwrapped]

theorem land_snd (h : Inv u) (hf : u.flight d = some f) :
    (land d u f).2 = if f.wrapped then ((u.chan d).moved.length : Int)
      else f.data.length - (u.chan d).moved.length := by
  have hleft := (h.flies d f hf).left
  have hstop := stopDma_left d u
  unfold land
  dsimp only
  split
  · dsimp only
    omega
  · dsimp only
    omega

theorem land_bounced (h : Inv u) (hf : u.flight d = some f) (hb : f.block = some b) :
    Stopped u (land d u f).1 d f := by
  have hflies := h.flies d f hf
  have hleft := hflies.left
  have hown : f.own = none :=
    hflies.one.resolve_left fun hnone => Option.some_ne_none b (hb.symm.trans hnone)
  have hblocks : f.blocks = [b] := by rw [Flight.blocks, hb, hown]; rfl
  obtain ⟨priv, hstop⟩ := stopDma_bounced h hf hb
  rw [land_fst hown, hstop, ← hblocks]
  refine ⟨?_, rfl, Function.update_self .., ?_⟩
  · refine h.landed hf h.fault rfl rfl rfl rfl (fun p hp => ?_) stoppedChan_other
      stoppedChan_running rfl rfl (.inl (h.free_of_block hf hb))
    cases d with
    | tx => rfl
    | rx => exact Function.update_of_ne hp ..
  · rintro rfl
    dsimp only [stopMem]
    rw [Function.update_self, List.length_append, List.length_drop, hflies.buflen]
    exact ⟨by omega, List.prefix_append ..⟩

theorem land_direct (h : Inv u) (hf : u.flight d = some f) (hb : f.block = none)
    (hpriv : u.priv.useingDmaBuf = false) : Stopped u (land d u f).1 d f := by
  have hflies := h.flies d f hf
  have hmoved := hflies.moved
  cases hown : f.own with
  | none =>
    have hblocks : f.blocks = [] := by rw [Flight.blocks, hb, hown]; rfl
    have hat : f.at = f.buf := by rw [Flight.at, hb, hown]
    rw [land_fst hown, stopDma_direct hpriv]
    refine ⟨?_, by rw [hblocks, List.append_nil], Function.update_self .., ?_⟩
    · exact h.landed hf h.fault rfl rfl (by rw [hblocks, List.append_nil]) rfl
        (fun p _ => rfl) stoppedChan_other stoppedChan_running rfl rfl (.inr rfl)
    · rintro rfl
      rw [hat] at hmoved
      exact ⟨hflies.buflen, hmoved ▸ List.take_prefix ..⟩
  | some own =>
    have hblocks : f.blocks = [own] := by rw [Flight.blocks, hb, hown]; rfl
    have hat : f.at = .block own := by rw [Flight.at, hb, hown]
    have hroom := hflies.room
    rw [hat] at hroom hmoved
    rw [land_fst_own (hflies.wrapped (by rw [hown]; rfl)), stopDma_direct hpriv, hown,
      wrapperOut_eq, ← hblocks]
    · refine ⟨?_, rfl, Function.update_self .., ?_⟩
      · exact h.landed hf h.fault rfl rfl rfl rfl (fun p hp => outMem_ne hp _) stoppedChan_other
          stoppedChan_running rfl rfl (.inr rfl)
      · rintro rfl
        dsimp only [outMem]
        rw [Function.update_self]
        exact ⟨hroom, hmoved ▸ List.take_prefix ..⟩
    · exact h.live hf (mem_blocks_of_own hown)
    · exact h.valid_buf hf
    · exact hflies.buflen
    · exact hroom

theorem land_stopped (h : Inv u) (hf : u.flight d = some f)
    (hapart : u.priv.useingDmaBuf = true → f.block.isSome) : Stopped u (land d u f).1 d f := by
  cases hb : f.block with
  | some b => exact land_bounced h hf hb
  | none =>
    refine land_direct h hf hb (Bool.eq_false_iff.mpr fun huseing => ?_)
    have hsome := hapart huseing
    rw [hb] at hsome
    exact Bool.false_ne_true hsome

/-! ## The wait -/

/-- Behind a wait the token is gone, and nothing else has changed. -/
theorem Inv.wait (h : Inv u) (hw : wait d u f timeout = some v) :
    Inv v ∧ v.flight = u.flight ∧ v.chan = u.chan ∧ v.priv = u.priv ∧ v.freed = u.freed := by
  unfold UartDma.wait at hw
  split at hw
  · obtain rfl := Option.some.inj hw
    exact ⟨h, rfl, rfl, rfl, rfl⟩
  split at hw
  · obtain rfl := Option.some.inj hw
    refine ⟨h.retell fun e htold => ?_, rfl, rfl, rfl, rfl⟩
    rcases Dir.eq_or_eq_other d e with rfl | rfl
    · rw [Function.update_self] at htold
      exact .inr (htold.resolve_left Bool.false_ne_true)
    · rwa [Function.update_of_ne (Dir.other_ne d)] at htold
  split at hw
  · obtain rfl := Option.some.inj hw
    exact ⟨h, rfl, rfl, rfl, rfl⟩
  · exact absurd hw.symm (Option.some_ne_none v)

/-- A wait that is not over by its time has a token, and the DMA is done. -/
theorem Flies.complete (h : Flies u d f) (hwrapped : f.wrapped = true)
    (hover : f.forever = true ∨ timeout = false) (hw : wait d u f timeout = some v) :
    (u.chan d).moved.length = f.data.length := by
  have hsem : u.sem d = true := by
    unfold UartDma.wait at hw
    rw [hwrapped, if_neg (show ¬true = false from nofun)] at hw
    by_contra hno
    have htime : ¬(timeout = true ∧ f.forever = false) := by
      rintro ⟨htimeout, hforever⟩
      rcases hover with hover | hover
      · exact Bool.false_ne_true (hforever.symm.trans hover)
      · exact Bool.false_ne_true (hover.symm.trans htimeout)
    rw [if_neg hno, if_neg htime] at hw
    exact absurd hw.symm (Option.some_ne_none v)
  have hzero := h.ended hwrapped (.inl hsem)
  have hleft := h.left
  omega

theorem stop_cases (timeout : Bool) (hf : u.flight d = some f) :
    (wait d u f timeout = none ∧ step u (.stop d timeout) = (u, 0)) ∨
      ∃ w, wait d u f timeout = some w ∧ step u (.stop d timeout) = land d w f := by
  dsimp only [step]
  rw [hf]
  dsimp only
  cases hw : wait d u f timeout with
  | none => exact .inl ⟨rfl, rfl⟩
  | some w => exact .inr ⟨w, rfl, rfl⟩

theorem stop_stopped (h : Inv u) (hf : u.flight d = some f)
    (hapart : u.priv.useingDmaBuf = true → f.block.isSome) {w : Uart}
    (hw : wait d u f timeout = some w) :
    Stopped w (land d w f).1 d f := by
  obtain ⟨hinv, hflight, -, hpriv, -⟩ := h.wait hw
  exact land_stopped hinv (by rw [hflight, hf]) (by rw [hpriv]; exact hapart)

/-! ## Runs -/

theorem step_inv (h : Inv u) {op : Op} (hordered : Ordered u op) (hapart : Apart u op) :
    Inv (step u op).1 := by
  cases op with
  | start d data psram room => exact start_inv h hordered hapart
  | call d data psram room forever => exact call_inv h hordered hapart
  | move d byte => exact move_inv h d byte
  | irq d => exact irq_inv h d
  | stop d timeout =>
    obtain ⟨f, hf⟩ := Option.ne_none_iff_exists'.mp hordered
    rcases stop_cases timeout hf with ⟨-, hstep⟩ | ⟨w, hw, hstep⟩
    · rw [hstep]
      exact h
    · rw [hstep]
      exact (stop_stopped h hf (hapart f hf) hw).inv

theorem inv_start : Inv Uart.start where
  fault := rfl
  flies _ _ h := absurd h.symm (Option.some_ne_none _)
  idle _ _ := rfl
  bufs _ _ h := absurd h.symm (Option.some_ne_none _)
  held := List.Perm.refl _
  nodup := List.nodup_nil
  lt := List.forall_mem_nil _

theorem run_inv {ops : List Op} (h : Inv u) (hapart : AllApart u ops) : Inv (run u ops) := by
  induction ops generalizing u with
  | nil => exact h
  | cons op ops ih => exact ih (step_inv h hapart.1.1 hapart.1.2) hapart.2

/-- Transfers that keep out of the other's block in the record and find no token of an earlier one:
nothing is accessed out of place, every block is freed once or belongs to a transfer in flight, and a
stop frees the blocks of its transfer. What was sent are the bytes of the caller, all of them where
the function around the transfer has waited for its end, and what was received is at the start of
the caller's buffer. -/
theorem bounce_buffers_kept (ops : List Op) (hapart : AllApart Uart.start ops) :
    let u := run Uart.start ops
    u.fault = false ∧ u.allocs.Nodup ∧ (u.freed ++ (u.held .tx ++ u.held .rx)).Perm u.allocs ∧
      ∀ d f timeout, u.flight d = some f → wait d u f timeout ≠ none →
        Apart u (.stop d timeout) →
        let moved := (u.chan d).moved
        let (v, ret) := step u (.stop d timeout)
        v.fault = false ∧ v.freed = u.freed ++ f.blocks ∧ v.flight d = none ∧
          (ret = if f.wrapped then (moved.length : Int) else f.data.length - moved.length) ∧
          (f.wrapped = true → f.forever = true ∨ timeout = false →
            moved.length = f.data.length) ∧
          (d = .tx → moved = f.data.take moved.length ∧ (f.wrapped = true → moved = f.data)) ∧
          (d = .rx → (v.mem f.buf).length = f.data.length ∧ moved <+: v.mem f.buf) := by
  have h := run_inv inv_start hapart
  refine ⟨h.fault, h.nodup, h.held, fun d f timeout hf hwait hstop => ?_⟩
  obtain ⟨w, hw⟩ := Option.ne_none_iff_exists'.mp hwait
  have hstopped := stop_stopped h hf (hstop f hf) hw
  have hflies := h.flies d f hf
  have hstep := ((stop_cases timeout hf).resolve_left fun hnone => hwait hnone.1)
  obtain ⟨w', hw', hstep⟩ := hstep
  obtain rfl := Option.some.inj (hw.symm.trans hw')
  obtain ⟨hinv, hflight, hchan, -, hfreed⟩ := h.wait hw
  have hret := land_snd hinv (by rw [hflight, hf])
  rw [hchan] at hret
  have hblocks := hstopped.freed.trans (congrArg (· ++ f.blocks) hfreed)
  rw [hstep]
  refine ⟨hstopped.inv.fault, hblocks, hstopped.flight, hret,
    fun hwrapped hover => hflies.complete hwrapped hover hw, fun hd => ?_, fun hd => ?_⟩
  · have hsent : ((run Uart.start ops).chan d).moved =
        f.data.take ((run Uart.start ops).chan d).moved.length := by
      have hmoved := hflies.moved
      rwa [hflies.sends hd] at hmoved
    refine ⟨hsent, fun hwrapped => ?_⟩
    have hall := hflies.complete hwrapped (.inl (hflies.forever hd hwrapped)) hw
    rw [hall, List.take_length] at hsent
    exact hsent
  · have hreceived := hstopped.received hd
    rwa [hchan] at hreceived

end

/-- A transmit from SRAM and a bounced receive overlap; the receive stops first. -/
def overlapped : List Op :=
  [.start .tx [1] false none, .start .rx [0, 0] true (some fun _ => 9), .move .rx 7, .move .tx 0]

/-- A transmit from PSRAM to its end. -/
def transmitted : List Op :=
  [.call .tx [1, 2] true (some fun _ => 9) true, .move .tx 0, .move .tx 0, .irq .tx]

theorem bounce_buffers_kept_overlapped :
    (step (run Uart.start overlapped) (.stop .rx false)).1.fault = false ∧
      (step (run Uart.start overlapped) (.stop .rx false)).1.freed = [2] ∧
      ((run Uart.start transmitted).chan .tx).moved = [1, 2] ∧
      (step (run Uart.start transmitted) (.stop .tx false)).1.freed = [1] := by
  have hapart : AllApart Uart.start overlapped := by
    refine ⟨⟨rfl, fun _ => ⟨fun f hf => ?_, fun _ => by decide⟩⟩,
      ⟨rfl, fun _ => ⟨fun f hf => ?_, fun _ => by decide⟩⟩, ⟨trivial, trivial⟩,
      ⟨trivial, trivial⟩, trivial⟩
    · exact absurd hf.symm (Option.some_ne_none f)
    · obtain rfl := Option.some.inj hf
      rfl
  obtain ⟨-, -, -, hstop⟩ := bounce_buffers_kept overlapped hapart
  have hrx := hstop .rx ⟨[0, 0], .caller 1, some 2, none, false, false⟩ false rfl
    (Option.some_ne_none _) (fun f hf _ => by obtain rfl := Option.some.inj hf; rfl)
  have hcalled : AllApart Uart.start transmitted :=
    ⟨⟨rfl, fun _ _ => ⟨fun f hf => absurd hf.symm (Option.some_ne_none f), by decide, rfl, rfl⟩⟩,
      ⟨trivial, trivial⟩, ⟨trivial, trivial⟩, ⟨trivial, trivial⟩, trivial⟩
  obtain ⟨-, -, -, hstop'⟩ := bounce_buffers_kept transmitted hcalled
  have htx := hstop' .tx ⟨[1, 2], .caller 0, none, some 1, true, true⟩ false rfl
    (Option.some_ne_none _) (fun f hf huseing => absurd huseing Bool.false_ne_true)
  exact ⟨hrx.1, hrx.2.1, (htx.2.2.2.2.2.1 rfl).2 rfl, htx.2.1⟩

/-- A transmit from SRAM starts beside a bounced receive: the receive leaves its block behind, and
the caller without the two bytes that came. A transmit that finds the token of an earlier one stops
before its first byte. -/
theorem bounce_buffer_lost :
    (let u := run Uart.start [.start .rx [0, 0] true (some fun _ => 0), .start .tx [1] false none,
      .move .rx 7, .move .rx 8]
    let v := run u [.stop .rx false, .move .tx 0, .stop .tx false]
    (u.chan .rx).moved = [7, 8] ∧ v.mem (.caller 0) = [0, 0] ∧ v.allocs = [1] ∧ v.freed = [] ∧
      v.flight .rx = none ∧ v.flight .tx = none) ∧
    let u := run Uart.start [.start .tx [1] false none, .move .tx 0, .irq .tx, .stop .tx false,
      .call .tx [2, 3] false none true]
    (u.chan .tx).moved = [] ∧ (step u (.stop .tx false)).1.flight .tx = none ∧
      (step u (.stop .tx false)).2 = 0 := by
  refine ⟨⟨by decide, by decide, by decide, by decide, rfl, rfl⟩, by decide, rfl, by decide⟩

end UartDma
end XR806

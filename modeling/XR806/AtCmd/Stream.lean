import XR806.AtCmd.Command
import XR806.AtCmd.Queue

/-!
# XR806.AtCmd.Stream

`at_parse` over the bytes of its queue: lines are collected in `cache` and dispatched, and behind a
send command that has been answered `AEC_SEND_READY` the payload is collected in `send_cache` and
handed over by a command that the parser gives itself.

`frame` says what the stream means apart from the parser: it looks at the bytes only, not at when
they come.
-/

namespace XR806
namespace AtCmd
namespace Stream

def cmdCacheMaxLen : Nat := 1024
def cmdSendDataMaxLen : Nat := 1024 + 4

/-- `CMD_SEND_TIMEOUT * 1000`. -/
def cmdSendTimeout : UInt32 := 10 * 1000

/-- The answers of a command. `handler` is one of those of the other handlers and of `at_send_data`,
none of which is `AEC_SEND_READY`. -/
inductive Aec
  | blankLine
  | cmdError
  | paraError
  | undefined
  | sendReady
  | handler
deriving DecidableEq, Repr

/-- `cmd_send_cache_t`. -/
structure SendCache where
  status : Nat
  cnt : Nat
  linkID : Nat
  length : Nat
  buf : List UInt8
deriving DecidableEq, Repr

def SendCache.zero : SendCache :=
  { status := 0, cnt := 0, linkID := 0, length := 0, buf := List.replicate cmdSendDataMaxLen 0 }

/-- What the parser passes on: a line to `at_parse_cmd`, a payload to `at_send_data`. -/
inductive Event
  | line (text : List UInt8)
  | payload (linkId : Nat) (data : List UInt8)
deriving DecidableEq, Repr

/-- What the parser does not decide. -/
structure Env where
  /-- Whether the `i`-th call of `get_is_tcp_socket_empty` finds a socket. -/
  linked : Nat → Bool
  /-- `OS_GetTicks` in each turn of the loop. -/
  ticks : Nat → UInt32
  /-- How often a handler that takes its data from the queue itself calls `at_queue_get`. -/
  gets : Nat → Nat

/-- The variables of `at_parse`. `cache` are the bytes of `cache.buf` below `cache.cnt`, as nothing
is read behind them. `turn` counts the turns of the loop, `calls` those of
`get_is_tcp_socket_empty`. -/
structure Parse where
  cache : List UInt8
  sendCache : SendCache
  flag : Bool
  sendTimeoutFlag : Bool
  t0 : UInt32
  turn : Nat
  calls : Nat

def Parse.start : Parse :=
  { cache := [], sendCache := .zero, flag := false, sendTimeoutFlag := false, t0 := 0, turn := 0,
    calls := 0 }

/-! ## A command -/

structure Answer where
  aec : Aec
  sendCache : SendCache
  sent : List Event
  calls : Nat
  gets : Nat

def SendCache.answer (sendCache : SendCache) (aec : Aec) : Answer :=
  { aec, sendCache, sent := [], calls := 0, gets := 0 }

/-- The head of `send_data_handler`: the link and the length of the payload. -/
def sendDataPara (para : List UInt8) : Option (Nat × Nat) :=
  if para.head? ≠ some atEqu then none
  else
    let p := atGetParameters (List.replicate 2 (di (aetBoth ||| sizeLimit 12))) para.tail
    if p.error ∨ p.values.length < 2 then none
    else some (atAtoi (p.values.getD 0 []), atAtoi (p.values.getD 1 []))

def sendDataHandler (linked : Bool) (sendCache : SendCache) (para : List UInt8) : Answer :=
  match sendDataPara para with
  | none => sendCache.answer .paraError
  | some (linkId, bufferlen) =>
    if linked = false then { sendCache.answer .undefined with calls := 1 }
    else if sendCache.status = 0 then
      if 4 ≤ linkId ∨ cmdSendDataMaxLen < bufferlen then
        { SendCache.zero.answer .paraError with calls := 1 }
      else
        { aec := .sendReady,
          sendCache := { sendCache with status := 1, linkID := linkId, length := bufferlen },
          sent := [], calls := 1, gets := 0 }
    else
      { aec := .handler, sendCache,
        sent := [.payload sendCache.linkID (sendCache.buf.take sendCache.length)],
        calls := 1, gets := 0 }

/-- The handlers by what they do to the stream: the send command, the two that read the queue
themselves, and the others. -/
inductive Called
  | send
  | data
  | other
deriving DecidableEq, Repr

def called (cmd : List UInt8) : Option Called :=
  (atCommandTable.find? fun entry => cString cmd = bytesOf entry.1).map fun entry =>
    if entry.1 = "AT+CIPSEND" then .send
    else if entry.1 = "AT+S." ∨ entry.1 = "AT+S.SOCKW" then .data
    else .other

def atParseCmd (env : Env) (s : Parse) : Answer :=
  match cmdName s.cache.length s.cache [] with
  | none => s.sendCache.answer .cmdError
  | some (cmd, cptr) =>
    if cmd = [] then s.sendCache.answer .blankLine
    else
      match called cmd with
      | none => s.sendCache.answer .cmdError
      | some .send => sendDataHandler (env.linked s.calls) s.sendCache cptr
      | some .data => { s.sendCache.answer .handler with gets := env.gets s.turn }
      | some .other => s.sendCache.answer .handler

/-! ## The loop -/

/-- `cache.buf[cache.cnt++] = tmp`, or the cache is full: then the command is discarded, and the
turn is over (`false`). -/
def Parse.put (s : Parse) (tmp : UInt8) : Parse × Bool :=
  if s.cache.length < cmdCacheMaxLen then ({ s with cache := s.cache ++ [tmp] }, true)
  else ({ s with cache := [] }, false)

/-- The end of a line: it is stored and the flag set, and then it is stored once more. -/
def Parse.terminate (s : Parse) (tmp : UInt8) : Parse × Bool :=
  match s.put tmp with
  | (s, false) => (s, false)
  | (s, true) => { s with flag := true }.put tmp

/-- The command that hands a payload over, with the end of its string. -/
def sendCommand : List UInt8 := bytesOf "AT+CIPSEND=0,1,u" ++ [0]

variable {κ : Type}

/-- A byte has been got. The last result is whether the turn goes on. -/
def receive (src : Source κ) (env : Env) (s : Parse) (tmp : UInt8) (k : κ) : Parse × κ × Bool :=
  if s.sendCache.status = 0 then
    if tmp = atLf then
      let r := s.terminate tmp
      (r.1, k, r.2)
    else if tmp = atCr then
      -- the carriage return is stored without a look at the room
      let s := { s with cache := s.cache ++ [tmp] }
      match src.peek k with
      | (none, k) =>
        let r := { s with flag := true }.put tmp
        (r.1, k, r.2)
      | (some next, k) =>
        if next = atLf then
          let (got, k) := src.get k
          let r := s.terminate (got.getD next)
          (r.1, k, r.2)
        else
          -- what `at_queue_peek` has found is stored, and stays in the queue
          let r := { s with flag := true }.put next
          (r.1, k, r.2)
    else
      let r := s.put tmp
      (r.1, k, r.2)
  else
    let cnt := s.sendCache.cnt + 1
    let sendCache := { s.sendCache with cnt, buf := s.sendCache.buf.set s.sendCache.cnt tmp }
    if s.sendCache.length ≤ cnt then
      ({ s with
          cache := sendCommand,
          sendCache := if cmdCacheMaxLen ≤ cnt then { sendCache with cnt := 0 } else sendCache,
          flag := true, sendTimeoutFlag := false, t0 := env.ticks s.turn }, k, false)
    else
      let r := { s with sendCache, sendTimeoutFlag := true, t0 := env.ticks s.turn }.put tmp
      (r.1, k, r.2)

def expire (env : Env) (s : Parse) : Parse :=
  if s.sendTimeoutFlag = true ∧ cmdSendTimeout < env.ticks s.turn - s.t0 then
    { s with sendTimeoutFlag := false, sendCache := .zero, cache := [] }
  else s

def isTerm (b : UInt8) : Bool := b = atCr ∨ b = atLf

/-- A line as `at_parse_cmd` gets it, up to its end. Nothing is passed for a blank line. -/
def lineEvents (cmdline : List UInt8) : List Event :=
  let text := cmdline.takeWhile (!isTerm ·)
  if text = [] then [] else [.line text]

def getMany (src : Source κ) : Nat → κ → κ
  | 0, k => k
  | n + 1, k => getMany src n (src.get k).2

def dispatch (src : Source κ) (env : Env) (s : Parse) (k : κ) : Parse × κ × List Event :=
  if s.flag then
    let a := atParseCmd env s
    -- the command that hands a payload over is not of the stream
    let lines := if s.sendCache.status = 0 then lineEvents s.cache else []
    ({ s with
        cache := [],
        sendCache :=
          if a.sendCache.status = 1 ∧ a.aec ≠ .sendReady then .zero else a.sendCache,
        flag := false, calls := s.calls + a.calls },
      getMany src a.gets k, lines ++ a.sent)
  else (s, k, [])

/-- The end of a turn that goes on to it. -/
def settle (src : Source κ) (env : Env) (s : Parse) (k : κ) : (Parse × κ) × List Event :=
  let r := dispatch src env (expire env s) k
  (({ r.1 with turn := r.1.turn + 1 }, r.2.1), r.2.2)

/-- One turn of the loop of `at_parse`. -/
def turn (src : Source κ) (env : Env) (c : Parse × κ) : (Parse × κ) × List Event :=
  match src.get c.2 with
  | (none, k) => settle src env c.1 k
  | (some tmp, k) =>
    match receive src env c.1 tmp k with
    | (s, k, true) => settle src env s k
    | (s, k, false) => (({ s with turn := s.turn + 1 }, k), [])

/-- So many turns of `at_parse`. -/
def atParse (src : Source κ) (env : Env) : Nat → Parse × κ → (Parse × κ) × List Event
  | 0, c => (c, [])
  | n + 1, c =>
    let r := turn src env c
    let rest := atParse src env n r.1
    (rest.1, r.2 ++ rest.2)

/-! ## What the stream means -/

/-- The command of a line, and its parameters with the end of the line. -/
def command (text : List UInt8) : Option (Called × List UInt8) :=
  match cmdName (text.length + 1) (text ++ [atLf]) [] with
  | none => none
  | some (cmd, cptr) => if cmd = [] then none else (called cmd).map fun c => (c, cptr)

/-- The link and the length of a line that is a send command with its parameters. -/
def sendRequest (text : List UInt8) : Option (Nat × Nat) :=
  match command text with
  | some (.send, cptr) => sendDataPara cptr
  | _ => none

/-- The link and the length where the line is answered `AEC_SEND_READY`. -/
def ready (linked : Bool) (text : List UInt8) : Option (Nat × Nat) :=
  (sendRequest text).filter fun r => linked && r.1 < 4 && r.2 ≤ cmdSendDataMaxLen

/-- The bytes of the line so far, whether the last one was a carriage return that ended a line, and
the payload that is being collected: its link, its length, and what there is of it. -/
structure Framing where
  text : List UInt8
  cr : Bool
  data : Option (Nat × Nat × List UInt8)
  calls : Nat

def Framing.start : Framing := { text := [], cr := false, data := none, calls := 0 }

/-- A payload of the length `n`, of which `got` is there: it goes on, or it is handed over. -/
def collect (env : Env) (cr : Bool) (calls link n : Nat) (got : List UInt8) :
    Framing × List Event :=
  if got.length < n then ({ text := [], cr, data := some (link, n, got), calls }, [])
  else
    ({ text := [], cr, data := none, calls := calls + 1 },
      if env.linked calls then [.payload link got] else [])

def Framing.endLine (env : Env) (f : Framing) (cr : Bool) : Framing × List Event :=
  let next : Framing := { text := [], cr, data := none, calls := f.calls }
  if f.text = [] ∨ cmdCacheMaxLen < f.text.length then (next, [])
  else
    let calls := f.calls + if (sendRequest f.text).isSome then 1 else 0
    match ready (env.linked f.calls) f.text with
    | none => ({ next with calls }, [.line f.text])
    | some (link, n) =>
      let r := collect env cr calls link n []
      (r.1, .line f.text :: r.2)

def Framing.step (env : Env) (f : Framing) (b : UInt8) : Framing × List Event :=
  if f.cr ∧ b = atLf then ({ f with cr := false }, [])
  else
    match f.data with
    | some (link, n, got) => collect env false f.calls link n (got ++ [b])
    | none =>
      if b = atLf then f.endLine env false
      else if b = atCr then f.endLine env true
      else ({ f with text := f.text ++ [b], cr := false }, [])

/-- The lines and the payloads of a stream: a line of at most `CMD_CACHE_MAX_LEN` bytes is passed
on, a longer one is not, and a payload is the next bytes behind its command. -/
def frame (env : Env) : Framing → List UInt8 → List Event
  | _, [] => []
  | f, b :: stream =>
    let r := f.step env b
    r.2 ++ frame env r.1 stream

end Stream
end AtCmd
end XR806
